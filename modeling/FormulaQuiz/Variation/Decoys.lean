import FormulaQuiz.Decimal.Places
import FormulaQuiz.Question.Basic
import FormulaQuiz.Variation.Alias

/-!
# Wrong answers

A wrong answer deviates from the right one by a percentage.  The pool of a final answer has the
deviations whose values differ from the right one and from each other at the author's precision; the
rows of wrong answers are drawn from the pools without replacement.
-/

namespace FormulaQuiz

/-- A wrong value of a final answer. -/
structure Decoy where
  /-- The deviation as a fraction of the right value. -/
  deviation : Float
  value : Float
deriving Repr

/-- The wrong values of a final answer. -/
structure DecoyPool where
  /-- The name of the final answer. -/
  name : String
  /-- The right value. -/
  value : Float
  /-- The labels of all deviations, also of those that give no wrong value. -/
  percentages : List String
  candidates : List Decoy
deriving Repr

namespace DecoyRange

/-- The deviation at an index, as a fraction. -/
def deviation (range : DecoyRange) (index : Nat) : Float :=
  roundTo (range.min + Float.ofNat index * range.step) 9 / 100

/-- The number of steps between the ends of the range, not rounded. -/
def span (range : DecoyRange) : Float := (range.max - range.min) / range.step

/-- The deviations of the range as fractions, from its lower end upward and without zero. -/
def deviations (range : DecoyRange) : Except Fault (List Float) := do
  if !(range.step.isFinite && range.step > 0) then throw (.decoyStepInvalid range.step)
  if range.min > range.max then throw (.decoyRangeInverted range.min range.max)
  let span := range.span
  if !span.isFinite || span ≥ Float.ofNat Fault.deviationLimit then
    throw (.decoyRangeTooLarge range.min range.max range.step)
  let steps := (toIntegral .down (span + 1e-9)).toUInt64.toNat
  return ((List.range (steps + 1)).map range.deviation).filter fun d ↦ d.abs > 1e-12

end DecoyRange

/-- The wrong values among the deviations of a right value, each the first with its value; `seen`
are the values that are not taken any more. -/
def decoysFrom (value : Float) (places : UInt8) (seen : List Float) : List Float → List Decoy
  | [] => []
  | deviation :: rest =>
    let candidate := roundTo (value * (1 + deviation)) places
    if candidate == value || seen.any (· == candidate) then decoysFrom value places seen rest
    else ⟨deviation, candidate⟩ :: decoysFrom value places (candidate :: seen) rest

/-- The wrong values of a final answer; it is a fault if there are fewer than required. -/
def decoyPool (name : String) (value : Float) (places : UInt8) (range : DecoyRange)
    (required : Nat) : Except Fault DecoyPool := do
  let deviations ← range.deviations
  let percentages := deviations.map percentLabel
  let candidates := decoysFrom value places [] deviations
  if candidates.length < required then throw (.insufficientDecoys name percentages)
  return { name, value, percentages, candidates }

variable {σ : Type} [Random.WordSource σ]

/-- Draws a number of wrong values from each of some pools. -/
def drawColumns (count : Nat) : List DecoyPool → Trial σ (List (List Decoy))
  | [] => return []
  | pool :: pools => do
    if pool.candidates.length < count then
      throw (.insufficientDecoys pool.name pool.percentages)
    let shuffled : Random.Draw σ (List Decoy) := Random.shuffle pool.candidates
    let column := (← shuffled).take count
    return column :: (← drawColumns count pools)

/-- The rows of a table that is given by its columns. -/
def rowsOf {α : Type} (count : Nat) (columns : List (List α)) : List (List α) :=
  (List.range count).map fun r ↦ columns.filterMap fun column ↦ column[r]?

/-- Draws a number of rows with one wrong value from each of some pools. -/
def drawRows (count : Nat) (pools : List DecoyPool) : Trial σ (List (List Decoy)) := do
  return rowsOf count (← drawColumns count pools)

end FormulaQuiz
