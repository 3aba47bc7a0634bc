import FormulaQuiz.Number.Dyadic

/-!
# Rounding a float to an integer, and remainders

The four directions of rounding are one function on exact values; the float functions keep
infinities, the undefined value and numbers that are integers already.
-/

namespace FormulaQuiz

/-- Where a number between two integers goes. -/
inductive Direction where
  /-- To the integer below. -/
  | down
  /-- To the integer above. -/
  | up
  /-- To the integer nearer to zero. -/
  | inward
  /-- To the nearer integer; from the middle, away from zero. -/
  | nearest
deriving DecidableEq, Repr

namespace Dyadic

/-- The magnitude of the integer that the number goes to. -/
def integralMagnitude (direction : Direction) (d : Dyadic) : Nat :=
  let whole := d.numerator / d.denominator
  let rest := d.numerator % d.denominator
  let outward : Bool := match direction with
    | .down => d.negative && rest != 0
    | .up => !d.negative && rest != 0
    | .inward => false
    | .nearest => decide (d.denominator ≤ 2 * rest)
  if outward then whole + 1 else whole

end Dyadic

/-- The integer that `x` goes to; its sign is the sign of `x` also when it is zero. -/
def toIntegral (direction : Direction) (x : Float) : Float :=
  match Dyadic.ofFloat? x with
  | none => x
  | some d =>
    if 0 ≤ d.exponent then x
    else Dyadic.toFloat ⟨d.negative, d.integralMagnitude direction, 0⟩

/-- What is left of `x` after its integer part. -/
def fraction (x : Float) : Float := x - toIntegral .inward x

/-- The float that is not a number. -/
def undefinedFloat : Float := 0.0 / 0.0

/-- The remainder of `x` by `y` after division toward zero, exact and with the sign of `x`; there
is none of an infinity or by zero. -/
def remainder (x y : Float) : Float :=
  match Dyadic.ofFloat? x, Dyadic.ofFloat? y with
  | some a, some b =>
    if b.significand = 0 then undefinedFloat
    else
      let exponent := min a.exponent b.exponent
      let scaled (d : Dyadic) : Nat := d.significand <<< (d.exponent - exponent).toNat
      Dyadic.toFloat ⟨a.negative, scaled a % scaled b, exponent⟩
  | some _, none => if y.isNaN then y else x
  | none, _ => undefinedFloat

end FormulaQuiz
