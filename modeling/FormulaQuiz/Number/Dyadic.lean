/-!
# The exact value of a float

A finite float is a signed significand times a power of two.  `Dyadic` is that exact value;
everything the library does to a float beyond the basic arithmetic (rounding to an integer,
remainders, printing) is computed on it in integers.
-/

namespace FormulaQuiz

/-- The number `(-1)^negative · significand · 2^exponent`. -/
structure Dyadic where
  /-- Whether the number carries a minus sign; zero may carry one too. -/
  negative : Bool
  /-- The magnitude in units of `2^exponent`. -/
  significand : Nat
  /-- The power of two that a unit of the significand stands for. -/
  exponent : Int
deriving DecidableEq, Repr

namespace Dyadic

open Float.Model in
/-- The exact value of a finite float, with the exponent of its format; an infinity and the
undefined value have none. -/
def ofFloat? (x : Float) : Option Dyadic :=
  match x.toModel.unpack with
  | .finite sign significand exponent _ => some ⟨sign == .negative, significand, exponent⟩
  | .zero sign => some ⟨sign == .negative, 0, 0⟩
  | .infinity _ | .notANumber => none

open Float.Model in
/-- The float nearest to the number, a tie going to the even significand. -/
def toFloat (d : Dyadic) : Float :=
  let sign := if d.negative then UnpackedFloat.Sign.negative else .positive
  .ofModel (.pack (UnpackedFloat.round Format.binary64 sign d.significand d.exponent))

/-- The numerator of the magnitude, over `denominator`. -/
def numerator (d : Dyadic) : Nat := d.significand <<< d.exponent.toNat

/-- The denominator of the magnitude, a power of two. -/
def denominator (d : Dyadic) : Nat := 1 <<< (-d.exponent).toNat

theorem denominator_pos (d : Dyadic) : 0 < d.denominator := by
  rw [denominator, Nat.one_shiftLeft]
  exact Nat.two_pow_pos _

end Dyadic

/-- Whether the sign bit of a float is set. -/
def signBit (x : Float) : Bool := x.toBits >>> 63 == 1

end FormulaQuiz
