/-!
# Powers of ten as floats

The scale factors of decimal rounding are made by repeated squaring in float arithmetic, so they
are exact up to `10^22` and carry the rounding of each product beyond.
-/

namespace FormulaQuiz

/-- The product of `r` and `a ^ n`, squaring `a` for each of at most `bits` binary digits of `n`
and stopping after the last digit that is set. -/
def powerFrom : (bits : Nat) → (r a : Float) → (n : Nat) → Float
  | 0, r, _, _ => r
  | bits + 1, r, a, n =>
    let r := if n % 2 = 1 then r * a else r
    if n / 2 = 0 then r else powerFrom bits r (a * a) (n / 2)

/-- Ten to the number of places, by repeated squaring. -/
def powerOfTen (places : UInt8) : Float := powerFrom 8 1 10 places.toNat

/-- One unit of the last of `places` decimal places. -/
def lastPlace (places : UInt8) : Float := 1 / powerOfTen places

end FormulaQuiz
