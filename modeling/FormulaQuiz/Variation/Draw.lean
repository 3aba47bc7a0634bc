import FormulaQuiz.Decimal.Places
import FormulaQuiz.Question.Basic
import FormulaQuiz.Random.Interval
import FormulaQuiz.Variation.Alias

/-!
# Drawing the value of an input

A value is drawn from the whole range and rounded to the author's precision; a value that rounding
moved out of the range goes to the nearest one inside with that precision.
-/

namespace FormulaQuiz

/-- The smallest amount by which a value counts as outside of a range. -/
def rangeTolerance : Float := 1e-9

namespace DrawRange

/-- The least and the greatest value of the range with its number of decimal places, if there are
any. -/
def bounds? (range : DrawRange) : Option (Float × Float) :=
  let unit := lastPlace range.places
  let low := roundTo range.min range.places
  let low := if low < range.min - rangeTolerance then roundTo (low + unit) range.places else low
  let high := roundTo range.max range.places
  let high := if high > range.max + rangeTolerance then roundTo (high - unit) range.places else high
  if low ≤ high then some (low, high) else none

/-- A value moved to the nearest one between two others. -/
def clamp (low high x : Float) : Float := if x < low then low else if x > high then high else x

/-- Draws a value of the range for a variable. -/
def draw {σ : Type} [Random.WordSource σ] (range : DrawRange) (name : String) : Trial σ Float := do
  if !range.isDrawable then throw (.randomBoundsTooWide name range.min range.max)
  let some (low, high) := range.bounds?
    | throw (.randomBoundsUnrepresentable name range.places range.min range.max)
  let raw : Random.Draw σ Float :=
    if range.min < range.max then Random.between range.min range.max else pure range.min
  return clamp low high (roundTo (← raw) range.places)

end DrawRange

end FormulaQuiz
