import FormulaQuiz.Formula.Evaluation
import FormulaQuiz.Formula.Plain
import FormulaQuiz.Question.Check
import FormulaQuiz.Variation.Draw

/-!
# The values of the inputs

Each input is drawn, or has its default as value.  The inputs have their turns in the order of their
names, so what is drawn does not depend on the order of declaration.
-/

namespace FormulaQuiz

open Formula (Bindings)

/-- The value of a default. -/
def Quantity.value (name : String) : Quantity → Except Fault Float
  | .number x => if x.isFinite then .ok x else .error (.defaultNotNumeric name)
  | .formula text =>
    match Formula.evaluate .empty (Formula.plainText text) with
    | .ok x => .ok x
    | .error _ => .error (.defaultNotNumeric name)

variable {σ : Type} [Random.WordSource σ]

/-- The value of an input, drawn if `randomize` holds and it has a range. -/
def Variable.resolve (v : Variable) (randomize : Bool) : Trial σ Float :=
  match v.role with
  | .finalAnswer _ _ => throw (.finalAnswerAsInput v.name)
  | .input default random =>
    match (if randomize then random else none), default with
    | some range, _ => range.draw v.name
    | none, none => throw (.defaultMissing v.name)
    | none, some quantity => Trial.ofExcept (quantity.value v.name)

/-- Binds the aliases of some inputs to their values. -/
def resolveAll (aliases : AliasTable) (randomize : Bool) (b : Bindings) :
    List Variable → Trial σ Bindings
  | [] => return b
  | v :: vs => do
    let x ← v.resolve randomize
    let some word := aliases.alias? v.name | throw (.notAliased v.name)
    match b.bind word x with
    | .ok b => resolveAll aliases randomize b vs
    | .error _ => throw (.duplicateName v.name)

/-- Binds the aliases of the inputs of a question to their values. -/
def Question.resolveInputs (q : Question) (aliases : AliasTable) (randomize : Bool) :
    Trial σ Bindings :=
  resolveAll aliases randomize .empty (q.inputs.mergeSort fun v w ↦ decide (v.name ≤ w.name))

end FormulaQuiz
