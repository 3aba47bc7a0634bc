import FormulaQuiz.Variation.Decoys
import FormulaQuiz.Variation.Steps

/-!
# Answer options

The right values of all final answers make the correct option, each row of wrong values an incorrect
one.  The options are shown in random order.
-/

namespace FormulaQuiz

open Formula (Bindings)

/-- An option for an answer. -/
structure AnswerOption where
  content : String
  isCorrect : Bool
  /-- Whether the content is typeset. -/
  isLatex : Bool
deriving DecidableEq, Repr

/-- An input as it is shown beside the question. -/
structure ShownVariable where
  name : String
  unit : Option String
  value : Float
  display : String
deriving Repr

/-- A final answer with its value. -/
structure FinalValue where
  name : String
  unit : Option String
  places : UInt8
  decoys : DecoyRange
  value : Float
deriving Repr

namespace Variable

/-- The value that the equations gave to a variable. -/
def boundValue (v : Variable) (progress : Progress) : Option Float :=
  progress.aliases.alias? v.name >>= progress.bindings.get?

/-- A final answer with the value that the equations gave it, at the author's precision. -/
def finalValue (v : Variable) (progress : Progress) (places : UInt8) (decoys : DecoyRange) :
    Except Fault FinalValue :=
  match v.boundValue progress with
  | none => .error (.notANumber v.name)
  | some raw =>
    let value := roundTo raw places
    if value.isFinite then .ok { name := v.name, unit := v.unit, places, decoys, value }
    else .error (.notANumber v.name)

/-- An input with its value, at the author's precision or at most at the default one. -/
def shown? (v : Variable) (progress : Progress) : Option ShownVariable :=
  (v.boundValue progress).map fun raw ↦
    match v.decimalPlaces with
    | some places => ⟨v.name, v.unit, roundTo raw places, formatFixed raw places⟩
    | none => ⟨v.name, v.unit, roundTo raw defaultPlaces, formatTrimmed raw defaultPlaces⟩

end Variable

/-- The final answers among some variables with their values, in order. -/
def finalValues (progress : Progress) : List Variable → Except Fault (List FinalValue)
  | [] => return []
  | v :: vs =>
    match v.role with
    | .input _ _ => finalValues progress vs
    | .finalAnswer places decoys => do
      let value ← v.finalValue progress places decoys
      return value :: (← finalValues progress vs)

/-- The inputs of a question with their values, in order of declaration. -/
def Question.shownInputs (q : Question) (progress : Progress) : List ShownVariable :=
  q.inputs.filterMap fun v ↦ v.shown? progress

/-- A value with its name and unit. -/
def answerPart (name : String) (unit : Option String) (value : Float) (places : UInt8) : String :=
  name ++ unit.elim "" (fun unit ↦ " (" ++ unit ++ ")") ++ " = " ++ formatFixed value places

/-- The values of some final answers in one line. -/
def answerRow (finals : List FinalValue) (values : List Float) : String :=
  ",".intercalate (finals.zipWith (fun answer value ↦
    answerPart answer.name answer.unit value answer.places) values)

/-- The options of a question: the right one first, then one for each row of wrong values. -/
def answerOptions (finals : List FinalValue) (rows : List (List Decoy)) : List AnswerOption :=
  ⟨answerRow finals (finals.map (·.value)), true, true⟩ ::
    rows.map fun row ↦ ⟨answerRow finals (row.map (·.value)), false, true⟩

/-- The options of a question in random order. -/
def shuffledOptions {σ : Type} [Random.WordSource σ] (finals : List FinalValue)
    (rows : List (List Decoy)) : Random.Draw σ (List AnswerOption) :=
  Random.shuffle (answerOptions finals rows)

end FormulaQuiz
