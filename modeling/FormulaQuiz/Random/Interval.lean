import FormulaQuiz.Number.Dyadic
import FormulaQuiz.Random.Source

/-!
# A random float of an interval

A float of 52 random bits in `[0, 1)` is scaled to the interval.  The scale is the greatest one at
or below the width over the greatest such float that does not lead beyond the upper end.
-/

namespace FormulaQuiz.Random

/-- The greatest float of 52 bits below one. -/
def greatestFraction : Float := Dyadic.toFloat ⟨false, 1 <<< 52 - 1, -52⟩

/-- The first scale that keeps to the upper end, among the floats with at most the given bits. -/
def fitScale (low high : Float) : (bits : Nat) → Float
  | 0 => 0
  | bits + 1 =>
    let scale := Float.ofBits (UInt64.ofNat (bits + 1))
    if scale * greatestFraction + low > high then fitScale low high bits else scale

/-- The scale from fractions to the interval. -/
def intervalScale (low high : Float) : Float :=
  fitScale low high ((high - low) / greatestFraction).toBits.toNat

variable {σ : Type} [WordSource σ]

/-- Draws a float between two floats of which the first is less. -/
def between (low high : Float) : Draw σ Float := do
  let fraction := Dyadic.toFloat ⟨false, (← doubleWord).toNat >>> 12, -52⟩
  return fraction * intervalScale low high + low

end FormulaQuiz.Random
