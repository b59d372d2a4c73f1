/-
Float arithmetic of the samplers, and the exponential of `kernels/internal/exp_common.h`.

An operation computes the exact result and a format makes a float of it: `single` and `double`
of a `FloatModel`.  The limits of the formats are the only rounding of `boundedFloats`; a
result beyond the largest finite float becomes an infinity.  A zero has no sign.
-/
import InferenceEngine.Sampling.Params
import Mathlib.Algebra.Field.Rat
import Mathlib.Data.Rat.Floor

namespace InferenceEngine

namespace F32

/-- `std::isnan`. -/
def isNan : F32 → Bool
  | .nan => true
  | _ => false

section

variable (round : Rat → F32)

/-- `a + b` -/
def add : F32 → F32 → F32
  | .finite a, .finite b => round (a + b)
  | .infinity s, .finite _ => .infinity s
  | .finite _, .infinity s => .infinity s
  | .infinity s, .infinity s' => if s = s' then .infinity s else .nan
  | _, _ => .nan

/-- `a - b` -/
def sub : F32 → F32 → F32
  | .finite a, .finite b => round (a - b)
  | .infinity s, .finite _ => .infinity s
  | .finite _, .infinity s => .infinity !s
  | .infinity s, .infinity s' => if s = s' then .nan else .infinity s
  | _, _ => .nan

/-- `a * b` -/
def mul : F32 → F32 → F32
  | .finite a, .finite b => round (a * b)
  | .infinity s, .finite b => if b = 0 then .nan else .infinity (s != decide (b < 0))
  | .finite a, .infinity s => if a = 0 then .nan else .infinity (s != decide (a < 0))
  | .infinity s, .infinity s' => .infinity (s != s')
  | _, _ => .nan

/-- `a / b` -/
def div : F32 → F32 → F32
  | .finite a, .finite b =>
      if b = 0 then (if a = 0 then .nan else .infinity (a < 0)) else round (a / b)
  | .infinity s, .finite b => .infinity (s != decide (b < 0))
  | .finite _, .infinity _ => .finite 0
  | _, _ => .nan

/-- A float in another format. -/
def convert : F32 → F32
  | .finite a => round a
  | x => x

end

/-- `std::max(a, b)` -/
def max (a b : F32) : F32 := if a.lt b then b else a

/-- `std::min(a, b)` -/
def min (a b : F32) : F32 := if b.lt a then b else a

/-- `std::floor`. -/
def floor : F32 → F32
  | .finite a => .finite ⌊a⌋
  | x => x

end F32

/-- The arithmetic of a run: the two formats, the exponential kernel and `std::log`. -/
structure FloatModel where
  single : Rat → F32
  double : Rat → F32
  exp : F32 → F32
  log : F32 → F32

/-- `std::numeric_limits<float>::max()` -/
def float32Max : Rat := (2 ^ 24 - 1) * 2 ^ 104

/-- `std::numeric_limits<double>::max()` -/
def float64Max : Rat := (2 ^ 53 - 1) * 2 ^ 971

/-- An exact result in a format with the largest finite value `largest`. -/
def F32.bounded (largest : Rat) (x : Rat) : F32 :=
  if largest < |x| then .infinity (x < 0) else .finite x

/-! ### The exponential

The range reduction and the polynomial of the kernel, operation by operation. -/

/-- `88.3762626647949F` -/
def kExpHi : Rat := 883762626647949 / 10 ^ 13

/-- `-87.3365478515625F` -/
def kExpLo : Rat := -873365478515625 / 10 ^ 13

/-- `1.44269504088896341F` -/
def kExpLog2ef : Rat := 144269504088896341 / 10 ^ 17

/-- `0.693359375F` -/
def kExpC1 : Rat := 693359375 / 10 ^ 9

/-- `-2.12194440e-4F` -/
def kExpC2 : Rat := -212194440 / 10 ^ 12

/-- `1.9875691500E-4F` -/
def kExpP0 : Rat := 19875691500 / 10 ^ 14

/-- `1.3981999507E-3F` -/
def kExpP1 : Rat := 13981999507 / 10 ^ 13

/-- `8.3334519073E-3F` -/
def kExpP2 : Rat := 83334519073 / 10 ^ 13

/-- `4.1665795894E-2F` -/
def kExpP3 : Rat := 41665795894 / 10 ^ 12

/-- `1.6666665459E-1F` -/
def kExpP4 : Rat := 16666665459 / 10 ^ 11

/-- `5.0000001201E-1F` -/
def kExpP5 : Rat := 50000001201 / 10 ^ 11

/-- The power of two whose exponent field is written; `fx + 127` is in `[1, 254]` for every
number that is not flushed. -/
def pow2n (fx : F32) : F32 :=
  match fx with
  | .finite n => .finite (2 ^ ⌊n⌋)
  | _ => .finite 1

/-- `ExpF32Scalar`.  The constants are the decimal literals of the code, not the floats next to
them. -/
def expF32Scalar (round : Rat → F32) (x : F32) : F32 :=
  if x.lt (.finite kExpLo) then .finite 0
  else
    let x := x.min (.finite kExpHi)
    let fx := ((F32.mul round (.finite kExpLog2ef) x).add round (.finite (1 / 2))).floor
    let x := x.sub round (fx.mul round (.finite kExpC1))
    let x := x.sub round (fx.mul round (.finite kExpC2))
    let z := x.mul round x
    let y := F32.finite kExpP0
    let y := (y.mul round x).add round (.finite kExpP1)
    let y := (y.mul round x).add round (.finite kExpP2)
    let y := (y.mul round x).add round (.finite kExpP3)
    let y := (y.mul round x).add round (.finite kExpP4)
    let y := (y.mul round x).add round (.finite kExpP5)
    let y := ((y.mul round z).add round x).add round (.finite 1)
    y.mul round (pow2n fx)

/-- Exact results up to the limits of the formats; `std::log` is the library's. -/
def boundedFloats (log : F32 → F32) : FloatModel where
  single := F32.bounded float32Max
  double := F32.bounded float64Max
  exp := expF32Scalar (F32.bounded float32Max)
  log := log

end InferenceEngine
