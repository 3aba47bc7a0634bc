import FormulaQuiz.Json.Record

/-!
# Drafts of questions

What an author writes: variables, some of them final answers, and the methods that compute the final
answers.  Nothing in a draft has been checked.
-/

namespace FormulaQuiz

/-- A value that an author gives as a number or as a formula. -/
inductive Quantity where
  | number (x : Float)
  | formula (text : String)
deriving Repr

/-- A variable as an author declares it. -/
structure Draft.Variable where
  name : String
  /-- An internal name noted by an editor; it has no meaning here. -/
  encoded : Option String := none
  isFinalAnswer : Bool := false
  randomize : Bool := false
  default : Option Quantity := none
  min : Option Float := none
  max : Option Float := none
  decimalPlaces : Option UInt8 := none
  unit : Option String := none
  /-- The least deviation of a wrong answer in percent. -/
  decoyMin : Option Float := none
  /-- The greatest deviation of a wrong answer in percent. -/
  decoyMax : Option Float := none
  /-- The step between deviations in percent. -/
  decoyStep : Option Float := none
deriving Repr

/-- An equation that computes a value, as an author writes it. -/
structure Draft.Method where
  expr : String
  explanation : Option String := none
deriving Repr

/-- A question as an author writes it. -/
structure Draft where
  «variables» : List Draft.Variable := []
  methods : List Draft.Method := []
deriving Repr

namespace Quantity

/-- A number or a string. -/
def ofJson? (json : Json) : Option Quantity :=
  match json.asFloat? with
  | some x => some (.number x)
  | none => json.asText?.map .formula

end Quantity

namespace Draft

/-- The names of a variable's fields, in order. -/
def Variable.fieldNames : List (List String) :=
  [["name"], ["encoded"], ["isFinalAnswer"], ["randomize"], ["default"], ["min"], ["max"],
    ["decimalPlaces"], ["unit"], ["decoyMinPct"], ["decoyMaxPct"], ["decoyStepPct", "step"]]

/-- Reads a variable. -/
def Variable.ofJson? (json : Json) : Option Variable := do
  let fields ← json.fields? fieldNames
  some {
    name := ← fields.required? 0 Json.asText?
    encoded := ← fields.optional? 1 Json.asText?
    isFinalAnswer := ← fields.withDefault? 2 false Json.asBool?
    randomize := ← fields.withDefault? 3 false Json.asBool?
    default := ← fields.optional? 4 Quantity.ofJson?
    min := ← fields.optional? 5 Json.asFloat?
    max := ← fields.optional? 6 Json.asFloat?
    decimalPlaces := ← fields.optional? 7 Json.asByte?
    unit := ← fields.optional? 8 Json.asText?
    decoyMin := ← fields.optional? 9 Json.asFloat?
    decoyMax := ← fields.optional? 10 Json.asFloat?
    decoyStep := ← fields.optional? 11 Json.asFloat? }

/-- Reads a method. -/
def Method.ofJson? (json : Json) : Option Method := do
  let fields ← json.fields? [["expr"], ["explanation"]]
  some {
    expr := ← fields.required? 0 Json.asText?
    explanation := ← fields.optional? 1 Json.asText? }

/-- Reads a draft. -/
def ofJson? (json : Json) : Option Draft := do
  let fields ← json.fields? [["variables"], ["methods"]]
  some {
    «variables» := ← fields.withDefault? 0 [] (Json.asList? Variable.ofJson?)
    methods := ← fields.withDefault? 1 [] (Json.asList? Method.ofJson?) }

/-- Reads a draft from the text of a document. -/
def ofText? (source : String) : Option Draft := Json.parse? source >>= ofJson?

end Draft

end FormulaQuiz
