import FormulaQuiz.Formula.Plain
import FormulaQuiz.Question.Basic
import FormulaQuiz.Question.Fault
import FormulaQuiz.Text.Blank

/-!
# Checking drafts

`Question.ofDraft` makes a question of a draft, or gives the first fault: the variables are checked
in order, each on its own before its name is compared with earlier ones; then there must be a final
answer; then the methods are checked in order.
-/

namespace FormulaQuiz

/-- The decimal places of an input for which an author gives none. -/
def defaultPlaces : UInt8 := 3

/-- The deviations of wrong answers for which an author gives none. -/
def defaultDecoys : DecoyRange := ⟨-90, 90, 20⟩

namespace Quantity

/-- Whether a quantity is a formula of blanks. -/
def isBlank : Quantity → Bool
  | number _ => false
  | formula text => Text.allBlank text

end Quantity

namespace Draft.Variable

/-- The deviations that an author gives, in their own fields or in those of the range. -/
def decoys (v : Draft.Variable) : DecoyRange where
  min := (v.decoyMin <|> v.min).getD defaultDecoys.min
  max := (v.decoyMax <|> v.max).getD defaultDecoys.max
  step := v.decoyStep.getD defaultDecoys.step

/-- Checks a final answer. -/
def finalAnswer (name : String) (v : Draft.Variable) : Except Fault Role := do
  if v.randomize then throw (.randomizedFinalAnswer name)
  let some places := v.decimalPlaces | throw (.decimalPlacesMissing name)
  let range := v.decoys
  if !(range.min.isFinite && range.max.isFinite && range.step.isFinite) || range.step ≤ 0 then
    throw (.stepSizeInvalid name)
  if range.min > range.max then throw (.wrongAnswersInverted name range.min range.max)
  return .finalAnswer places range

/-- Checks the range of an input that is drawn. -/
def drawRange (name : String) (v : Draft.Variable) : Except Fault DrawRange := do
  let (some min, some max) := (v.min, v.max) | throw (.randomBoundsMissing name)
  if !min.isFinite || !max.isFinite || min > max then throw (.randomBoundsInvalid name min max)
  let range : DrawRange := ⟨min, max, v.decimalPlaces.getD defaultPlaces⟩
  if !range.isDrawable then throw (.randomBoundsTooWide name min max)
  return range

/-- Checks an input. -/
def input (name : String) (v : Draft.Variable) : Except Fault Role := do
  let default := v.default.filter fun d ↦ !d.isBlank
  if v.randomize then return .input default (some (← v.drawRange name))
  else return .input default none

/-- Checks a variable on its own. -/
def check (v : Draft.Variable) : Except Fault FormulaQuiz.Variable := do
  let name := Text.trim v.name
  if name.isEmpty then throw .emptyName
  let role ← if v.isFinalAnswer then v.finalAnswer name else v.input name
  let unit := (v.unit.map Text.trim).filter fun unit ↦ !unit.isEmpty
  return { name, unit, decimalPlaces := v.decimalPlaces, role }

/-- Checks variables in order; `seen` are the names of the variables before them. -/
def checkAll (seen : List String) : List Draft.Variable → Except Fault (List FormulaQuiz.Variable)
  | [] => return []
  | v :: vs => do
    let checked ← v.check
    if seen.contains checked.name then throw (.duplicateName checked.name)
    return checked :: (← checkAll (checked.name :: seen) vs)

end Draft.Variable

/-- The two sides of a text with exactly one equals sign. -/
def splitEquation? (cs : List Char) : Option (List Char × List Char) :=
  match cs.dropWhile (· != '=') with
  | _ :: right => if right.contains '=' then none else some (cs.takeWhile (· != '='), right)
  | [] => none

namespace Draft.Method

/-- Checks the method with a number. -/
def check (index : Nat) (m : Draft.Method) : Except Fault Step := do
  let raw := Text.trim m.expr
  if raw.isEmpty then throw (.emptyMethod index)
  let invalid : Fault := .step .notEquation ⟨index, raw, Formula.plainText raw, none⟩
  let some (left, right) := splitEquation? raw.toList | throw invalid
  let lhs := String.ofList (Text.trimChars left)
  let rhs := String.ofList (Text.trimChars right)
  if lhs.isEmpty || rhs.isEmpty then throw invalid
  return { index, raw, lhs, rhs, explanation := m.explanation }

/-- Checks methods in order, the first of which has the number `index`. -/
def checkAll (index : Nat) : List Draft.Method → Except Fault (List Step)
  | [] => return []
  | m :: ms => do
    let step ← m.check index
    return step :: (← checkAll (index + 1) ms)

end Draft.Method

/-- The question that a draft is, or its first fault. -/
def Question.ofDraft (draft : Draft) : Except Fault Question := do
  if draft.variables.isEmpty || draft.methods.isEmpty then throw .emptyDraft
  let declarations ← Draft.Variable.checkAll [] draft.variables
  if !declarations.any Variable.isFinalAnswer then throw .noFinalAnswer
  let steps ← Draft.Method.checkAll 1 draft.methods
  return { «variables» := declarations, steps }

end FormulaQuiz
