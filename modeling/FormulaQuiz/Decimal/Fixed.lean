import FormulaQuiz.Decimal.Digits
import FormulaQuiz.Number.Dyadic

/-!
# A set number of decimal places

The exact value of a float is rounded to a multiple of one unit of the last place, a half going to
the even neighbour, and written with all its places.
-/

namespace FormulaQuiz.Decimal

/-- The integer nearest to a quotient, the even one from the middle. -/
def nearestEven (numerator denominator : Nat) : Nat :=
  let below := numerator / denominator
  let twice := 2 * (numerator % denominator)
  if twice < denominator then below
  else if twice = denominator then below + below % 2
  else below + 1

/-- The magnitude of an exact number in units of the last of `places` decimal places. -/
def unitsAt (places : Nat) (d : Dyadic) : Nat :=
  nearestEven (d.numerator * Nat.pow 10 places) d.denominator

/-- A number of units of the last of `places` decimal places, written out. -/
def placedText (places units : Nat) : List Char :=
  let ds := paddedDigits (places + 1) units
  let whole := ds.take (ds.length - places)
  if places = 0 then whole else whole ++ '.' :: ds.drop (ds.length - places)

/-- The text of a float with `places` decimal places, and with its sign even when it is zero. -/
def fixedChars (places : Nat) (x : Float) : List Char :=
  match Dyadic.ofFloat? x with
  | none => if x.isNaN then "NaN".toList else if x < 0 then "-inf".toList else "inf".toList
  | some d =>
    let text := placedText places (unitsAt places d)
    if d.negative then '-' :: text else text

end FormulaQuiz.Decimal
