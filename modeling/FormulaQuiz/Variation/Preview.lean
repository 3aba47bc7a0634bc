import FormulaQuiz.Variation.Answers

/-!
# Variations of a question

`Settings.preview` makes one variation of a question: aliases, inputs, equations, final answers,
wrong answers and options, in this order.  It also reports how the wrong answers came about.
-/

namespace FormulaQuiz

/-- The settings under which questions are varied. -/
structure Settings where
  /-- How many wrong options stand beside the correct one. -/
  decoyCount : Nat := 3
  aliasLength : Nat := 8
  aliasAttempts : Nat := 1000
deriving DecidableEq, Repr

/-- A question as a learner sees it. -/
structure Variation where
  shown : List ShownVariable
  answers : List AnswerOption
deriving Repr

/-- How a final answer and its wrong values came about. -/
structure FinalAnswerPreview where
  name : String
  unit : Option String
  value : Float
  display : String
  percentages : List String
  incorrectValues : List Float
deriving Repr

/-- A variation with the report on its final answers. -/
structure Preview where
  finalAnswers : List FinalAnswerPreview
  variation : Variation
deriving Repr

/-- The first option that is correct. -/
def Variation.correctAnswer? (v : Variation) : Option AnswerOption :=
  v.answers.find? (·.isCorrect)

/-- The pool of a final answer. -/
def FinalValue.pool (answer : FinalValue) (required : Nat) : Except Fault DecoyPool :=
  decoyPool answer.name answer.value answer.places answer.decoys required

/-- The pools of some final answers, in order. -/
def decoyPools (required : Nat) : List FinalValue → Except Fault (List DecoyPool)
  | [] => return []
  | answer :: answers => do
    let pool ← answer.pool required
    return pool :: (← decoyPools required answers)

/-- The report on a final answer, the wrong values of which stand in a column of some rows. -/
def FinalValue.preview (answer : FinalValue) (pool : DecoyPool) (rows : List (List Decoy))
    (column : Nat) : FinalAnswerPreview where
  name := answer.name
  unit := answer.unit
  value := answer.value
  display := formatFixed answer.value answer.places
  percentages := pool.percentages
  incorrectValues := rows.filterMap fun row ↦ row[column]?.map (·.value)

/-- The reports on final answers and their pools, the first of which has the wrong values in the
given column. -/
def previewsFrom (rows : List (List Decoy)) (column : Nat) :
    List FinalValue → List DecoyPool → List FinalAnswerPreview
  | answer :: answers, pool :: pools =>
    answer.preview pool rows column :: previewsFrom rows (column + 1) answers pools
  | _, _ => []

namespace Settings

/-- Checks settings. -/
def check (s : Settings) : Except Fault Unit := do
  if s.decoyCount = 0 then throw .noWrongAnswers
  if s.aliasLength = 0 ∨ s.aliasAttempts = 0 then throw .noAliases

/-- How aliases are made. -/
def aliasPolicy (s : Settings) : AliasPolicy := ⟨s.aliasLength, s.aliasAttempts⟩

variable {σ : Type} [Random.WordSource σ]

/-- The aliases and values of all names of a question. -/
def solve (s : Settings) (q : Question) (randomize : Bool) : Trial σ Progress := do
  let aliases ← AliasTable.ofNames s.aliasPolicy (q.variables.map (·.name))
  let bindings ← q.resolveInputs aliases randomize
  let run : Random.Draw σ (Except Fault Unit × Progress) :=
    (Step.runAll q q.steps).run.run ⟨aliases, bindings⟩
  match ← run with
  | (.ok _, progress) => return progress
  | (.error fault, _) => throw fault

/-- A variation of a question with its report. -/
def preview (s : Settings) (q : Question) (randomize : Bool) : Trial σ Preview := do
  let progress ← s.solve q randomize
  let finals ← Trial.ofExcept (finalValues progress q.variables)
  let pools ← Trial.ofExcept (decoyPools s.decoyCount finals)
  let rows ← drawRows s.decoyCount pools
  let options : Random.Draw σ (List AnswerOption) := shuffledOptions finals rows
  return {
    finalAnswers := previewsFrom rows 0 finals pools
    variation := { shown := q.shownInputs progress, answers := ← options } }

/-- A variation of a question. -/
def generate (s : Settings) (q : Question) (randomize : Bool) : Trial σ Variation := do
  return (← s.preview q randomize).variation

end Settings

end FormulaQuiz
