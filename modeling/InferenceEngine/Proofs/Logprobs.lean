/-
Whether asking for log-probabilities changes what is selected.

Both calls run the same row function and differ in one flag.  The greedy branch checks the row
for finiteness only when the flag is set, so a row that the argmax gets through and the check
does not makes the two calls differ.  The stochastic branch checks the row either way, but the
penalties and the temperature come after the check: when they drive the maximum to an infinity,
the draw returns its fallback value, at which the log-probabilities are read.
-/
import InferenceEngine.Proofs.SampleRow

namespace InferenceEngine

open Except

/-! ### The condition

The flag matters in two places, behind an argmax and behind a draw.  The condition says of each
of them when the row it is asked for can be read. -/

section

variable {m : FloatModel} {params : SamplingParams} {context : SampleContext}
  {logits : List F32}

end

/-- Two calls return, with the same token or the same status. -/
def Agree (x y : Checked (StatusOr SampleResult)) : Prop :=
  ∃ a b, x = .ok a ∧ y = .ok b ∧ b.map SampleResult.token = a.map SampleResult.token

section

variable {m : FloatModel} {params : SamplingParams} {context : SampleContext}
  {logits row : List F32}

end

/-! ### Both branches

Which branch is taken depends on the temperature, and the flag has no part in it. -/

section

variable (log : F32 → F32) {params : SamplingParams} {t r p f : Rat}
  (hparams : Accepted params t r p f) (context : SampleContext) (logits : List F32)
include hparams

end

end InferenceEngine
