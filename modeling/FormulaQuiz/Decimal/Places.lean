import FormulaQuiz.Decimal.Fixed
import FormulaQuiz.Number.Integral
import FormulaQuiz.Number.PowerOfTen

/-!
# Values at an author's precision

Values are rounded to a number of decimal places before they are shown.  `roundTo` does so in float
arithmetic; `formatFixed` and `formatTrimmed` write the result with and without trailing zeros.
-/

namespace FormulaQuiz

/-- The value at a number of decimal places, a half going away from zero and zero losing its sign;
a value too large to be scaled is kept. -/
def roundTo (x : Float) (places : UInt8) : Float :=
  let factor := powerOfTen places
  let scaled := x * factor
  if scaled.isFinite then
    let rounded := toIntegral .nearest scaled / factor
    if rounded == 0 then 0 else rounded
  else x

/-- A text without its minus sign if only zeros and a point follow the sign. -/
def dropZeroSign : List Char → List Char
  | '-' :: cs => if cs.all fun c ↦ c == '0' || c == '.' then cs else '-' :: cs
  | cs => cs

/-- The value rounded to a number of decimal places and written with all of them; a zero has no
sign. -/
def formatFixed (x : Float) (places : UInt8) : String :=
  String.ofList (dropZeroSign (Decimal.fixedChars places.toNat (roundTo x places)))

/-- The distance from one to the next float. -/
def floatEpsilon : Float := Dyadic.toFloat ⟨false, 1, -52⟩

/-- The value rounded to a number of decimal places and written without trailing zeros; a value
that is an integer up to `floatEpsilon` is written as one. -/
def formatTrimmed (x : Float) (places : UInt8) : String :=
  let rounded := roundTo x places
  if (fraction rounded).abs < floatEpsilon then String.ofList (Decimal.fixedChars 0 rounded)
  else
    let text := (formatFixed rounded places).toList
    String.ofList (Decimal.dropTrailing '.' (Decimal.dropTrailing '0' text))

/-- A deviation fraction as a percentage with up to six decimal places. -/
def percentLabel (deviation : Float) : String := formatTrimmed (deviation * 100) 6 ++ "%"

end FormulaQuiz
