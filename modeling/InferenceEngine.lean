import InferenceEngine.Proofs.PoolSystem
import InferenceEngine.Proofs.KvCopy
import InferenceEngine.KvCache.KvLog
import InferenceEngine.Proofs.SimpleKvCache
import InferenceEngine.Proofs.PagedKvCache
import InferenceEngine.KvCache.PairedCaches
import InferenceEngine.Proofs.PairedCaches
import InferenceEngine.KvCache.StampedCaches
import InferenceEngine.Proofs.StampedCaches
import InferenceEngine.Engine.Stop
import InferenceEngine.Model.Model
import InferenceEngine.Model.Contract
import InferenceEngine.Sampling.Sampler
import InferenceEngine.Engine.Batch
import InferenceEngine.Engine.Generate
import InferenceEngine.Scheduler.Scheduler
import InferenceEngine.Runtime.Channel
import InferenceEngine.Runtime.Engine
import InferenceEngine.Runtime.EngineSystem
import InferenceEngine.Runtime.Turn
import InferenceEngine.Proofs.Forward
import InferenceEngine.Proofs.Scheduler
import InferenceEngine.Proofs.Contract
import InferenceEngine.Proofs.EngineBooks
import InferenceEngine.Proofs.EngineForward
import InferenceEngine.Proofs.EngineTurn
import InferenceEngine.Proofs.EngineRecover
import InferenceEngine.Lib.Utf8
import InferenceEngine.Proofs.Detokenize
import InferenceEngine.Lib.Words
import InferenceEngine.Proofs.Stop
import InferenceEngine.Proofs.StopChecker
import InferenceEngine.Lib.CombineTree
import InferenceEngine.Parallel.ParallelFor
import InferenceEngine.Proofs.ParallelFor
import InferenceEngine.Proofs.ThreadPool
import InferenceEngine.Tokenizer.SplitPattern
import InferenceEngine.Proofs.Unicode
import InferenceEngine.Proofs.SplitPattern
import InferenceEngine.Proofs.Pretokenize
import InferenceEngine.Tokenizer.Bpe
import InferenceEngine.Tokenizer.Json
import InferenceEngine.Tokenizer.FromJson
import InferenceEngine.Tokenizer.Load
import InferenceEngine.Tokenizer.Encode
import InferenceEngine.Proofs.Bpe
import InferenceEngine.Proofs.Load
import InferenceEngine.Proofs.Encode
import InferenceEngine.Sampling.SampleRow
import InferenceEngine.Proofs.Float
import InferenceEngine.Proofs.Stages
import InferenceEngine.Proofs.Draw
import InferenceEngine.Proofs.SampleRow
import InferenceEngine.KvCache.CacheInterface
import InferenceEngine.Lib.Fallible
import InferenceEngine.Model.RowKernels
import InferenceEngine.Model.BatchRequest
import InferenceEngine.Model.OptimizedModel
import InferenceEngine.Model.ReferenceModel
import InferenceEngine.Model.ForwardDemands
import InferenceEngine.Proofs.CacheInterface
import InferenceEngine.Proofs.ForwardDemands
import InferenceEngine.Proofs.ForwardFailure
import InferenceEngine.Proofs.Rollback
import InferenceEngine.Proofs.PoolSizing
import InferenceEngine.Proofs.Admission
import InferenceEngine.Memory.CachingAllocator
import InferenceEngine.Proofs.CachingAllocator
import InferenceEngine.Lib.MixedRadix
import InferenceEngine.Tensor.Shape
import InferenceEngine.Memory.Buffer
import InferenceEngine.Tensor.View
import InferenceEngine.Proofs.TensorView
import InferenceEngine.Lib.Tiling
import InferenceEngine.Model.Safetensors
import InferenceEngine.Proofs.Safetensors
import InferenceEngine.Lib.Ensures
import InferenceEngine.Proofs.CacheCounts
import InferenceEngine.Proofs.EngineMoves
import InferenceEngine.Proofs.EngineLists
import InferenceEngine.Proofs.EngineRuns
import InferenceEngine.Proofs.Preemption
import InferenceEngine.Proofs.Committed
import InferenceEngine.Proofs.Progress
import InferenceEngine.Proofs.Lossy
import InferenceEngine.Lib.PairMerge
import InferenceEngine.Proofs.Merges
import InferenceEngine.Proofs.Document
import InferenceEngine.Proofs.Alphabet
import InferenceEngine.Proofs.Codec
import InferenceEngine.Tokenizer.Nfc
import InferenceEngine.Proofs.Nfc
import InferenceEngine.Engine.BatchAssembler
import InferenceEngine.Proofs.BatchAssembler
import InferenceEngine.Lib.WeightedChoice
import InferenceEngine.Proofs.Nucleus
import InferenceEngine.Proofs.ExactDraw
import InferenceEngine.Proofs.Logprobs
import InferenceEngine.Proofs.AddedSplit
import InferenceEngine.Proofs.Penalties
import InferenceEngine.Sampling.BatchedSampler
import InferenceEngine.Model.WeightMap
import InferenceEngine.Proofs.BatchedSampler
import InferenceEngine.Proofs.WeightMap
import InferenceEngine.Model.Checkpoint
import InferenceEngine.Proofs.Checkpoint
import InferenceEngine.Lib.Stores
import InferenceEngine.Parallel.Schedule
import InferenceEngine.Kernels.CpuGemm
import InferenceEngine.Kernels.Gemm
import InferenceEngine.Model.PackedLinear
import InferenceEngine.Proofs.Gemm
import InferenceEngine.Kernels.Embedding
import InferenceEngine.Proofs.Embedding
import InferenceEngine.KvCache.PoolSystem
import InferenceEngine.KvCache.KvBudget
import InferenceEngine.Proofs.KvBudget
import InferenceEngine.Lib.Progression
import InferenceEngine.Tensor.Arange
import InferenceEngine.Proofs.Arange
import InferenceEngine.Lib.BinaryFormat
import InferenceEngine.Lib.Narrowing
import InferenceEngine.Proofs.Half
import InferenceEngine.Model.Config
import InferenceEngine.Model.Construct
import InferenceEngine.Proofs.Config
import InferenceEngine.Proofs.Construct
import InferenceEngine.Kernels.Attention
import InferenceEngine.Kernels.AttentionEntries
import InferenceEngine.Kernels.CpuOps
import InferenceEngine.Lib.OnlineSoftmax
import InferenceEngine.Lib.Segments
import InferenceEngine.Proofs.Attention
import InferenceEngine.Proofs.AttentionDecode
import InferenceEngine.Proofs.AttentionEntries
import InferenceEngine.Proofs.CpuAttention
import InferenceEngine.Proofs.OnlineAttention
import InferenceEngine.Proofs.Clients
import InferenceEngine.Proofs.EngineAccounts
import InferenceEngine.Proofs.EngineRequest
import InferenceEngine.Proofs.Arrivals
import InferenceEngine.Proofs.Generate
import InferenceEngine.Proofs.Protocol
