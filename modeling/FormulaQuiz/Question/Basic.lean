import FormulaQuiz.Question.Draft

/-!
# Questions

A question is a draft that has been checked: its names differ, its ranges can be drawn from, and
each of its methods is one equation.
-/

namespace FormulaQuiz

/-- The deviations of wrong answers from a right one, in percent. -/
structure DecoyRange where
  min : Float
  max : Float
  step : Float
deriving Repr

/-- The values that may be drawn for an input. -/
structure DrawRange where
  min : Float
  max : Float
  places : UInt8
deriving Repr

/-- The greatest finite float. -/
def greatestFloat : Float := Dyadic.toFloat ⟨false, 1 <<< 53 - 1, 971⟩

/-- Whether the width of a range is small enough to draw from it. -/
def DrawRange.isDrawable (range : DrawRange) : Bool :=
  let width := range.max - range.min
  width.isFinite && width < greatestFloat / 2

/-- What a variable is for. -/
inductive Role where
  /-- The value is given, or drawn if a range is known. -/
  | input (default : Option Quantity) (random : Option DrawRange)
  /-- The value is asked for. -/
  | finalAnswer (places : UInt8) (decoys : DecoyRange)
deriving Repr

/-- A variable of a question. -/
structure Variable where
  name : String
  unit : Option String
  decimalPlaces : Option UInt8
  role : Role
deriving Repr

/-- Whether the value of a variable is asked for. -/
def Variable.isFinalAnswer (v : Variable) : Bool :=
  match v.role with
  | .finalAnswer _ _ => true
  | .input _ _ => false

/-- An equation that gives a value to the name on its left. -/
structure Step where
  /-- The number of the equation, from one. -/
  index : Nat
  /-- The equation as written. -/
  raw : String
  lhs : String
  rhs : String
  explanation : Option String
deriving DecidableEq, Repr

/-- A question that has been checked. -/
structure Question where
  «variables» : List Variable
  steps : List Step
deriving Repr

namespace Question

/-- The first variable with a name. -/
def declared? (q : Question) (name : String) : Option Variable :=
  q.variables.find? fun v ↦ v.name == name

/-- The inputs in order of declaration. -/
def inputs (q : Question) : List Variable := q.variables.filter fun v ↦ !v.isFinalAnswer

/-- The final answers in order of declaration. -/
def finalAnswers (q : Question) : List Variable := q.variables.filter Variable.isFinalAnswer

end Question

end FormulaQuiz
