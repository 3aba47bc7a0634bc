import FormulaQuiz.Question.Check
import FormulaQuiz.Random.ChaCha
import FormulaQuiz.Variation.Preview

/-!
# Requests for variations

A request is a draft with the settings for one variation of it.  A source is a question in storage:
a draft, or answers that are the same for every learner.  Everything is decided by a seed.
-/

namespace FormulaQuiz

/-- Runs a random action on the generator of a seed. -/
def Trial.ofSeed {α : Type} (seed : UInt64) (trial : Trial Random.ChaCha α) : Except Fault α :=
  (trial.run (Random.ChaCha.ofSeed seed)).1

/-- The greatest number in a setting. -/
def settingMax : Nat := 1 <<< 64 - 1

/-- Reads settings, each of which has a default. -/
def Settings.ofJson? (json : Json) : Option Settings := do
  let fields ← json.fields? [["incorrectOptionCount"], ["tokenLength"], ["maxTokenAttempts"]]
  let defaults : Settings := {}
  some {
    decoyCount := ← fields.withDefault? 0 defaults.decoyCount (Json.asNat? settingMax)
    aliasLength := ← fields.withDefault? 1 defaults.aliasLength (Json.asNat? settingMax)
    aliasAttempts := ← fields.withDefault? 2 defaults.aliasAttempts (Json.asNat? settingMax) }

/-- A request for a variation. -/
structure Request where
  draft : Draft
  randomize : Bool := true
  /-- Without a seed the variation is not determined. -/
  seed : Option UInt64 := none
  settings : Settings := {}
deriving Repr

namespace Request

/-- Reads a seed. -/
def seedOfJson? (json : Json) : Option UInt64 := (json.asNat? settingMax).map UInt64.ofNat

/-- Reads a request. -/
def ofJson? (json : Json) : Option Request := do
  let fields ← json.fields? [["definition"], ["randomize"], ["randomSeed"], ["engineOptions"]]
  some {
    draft := ← fields.required? 0 Draft.ofJson?
    randomize := ← fields.withDefault? 1 true Json.asBool?
    seed := ← fields.optional? 2 seedOfJson?
    settings := ← fields.withDefault? 3 {} Settings.ofJson? }

/-- Reads a request from the text of a document. -/
def ofText? (source : String) : Option Request := Json.parse? source >>= ofJson?

/-- The variation that is requested, made with a seed. -/
def generate (r : Request) (seed : UInt64) : Except Fault Variation := do
  let question ← Question.ofDraft r.draft
  r.settings.check
  Trial.ofSeed seed (r.settings.generate question r.randomize)

end Request

namespace Draft

/-- A variation of the draft with its report, made with a seed. -/
def preview (d : Draft) (randomize : Bool) (seed : UInt64) : Except Fault Preview := do
  let question ← Question.ofDraft d
  Trial.ofSeed seed (Settings.preview {} question randomize)

/-- The question that the draft is, if a variation of it can be made with seed zero. -/
def validate (d : Draft) : Except Fault Question := do
  let question ← Question.ofDraft d
  let _ ← Trial.ofSeed 0 (Settings.generate {} question true)
  return question

end Draft

/-- Reads an option; it is typeset unless the document says otherwise. -/
def AnswerOption.ofJson? (json : Json) : Option AnswerOption := do
  let fields ← json.fields? [["content"], ["isCorrect"], ["isLatex"]]
  some {
    content := ← fields.required? 0 Json.asText?
    isCorrect := ← fields.required? 1 Json.asBool?
    isLatex := ← fields.withDefault? 2 true Json.asBool? }

/-- A question in storage. -/
inductive Source where
  /-- Every learner sees a variation of a draft. -/
  | dynamic (draft : Draft)
  /-- Every learner sees the same answers, each in another order. -/
  | static (answers : List AnswerOption)
deriving Repr

namespace Source

/-- Reads a source; its kind is told by a tag. -/
def ofJson? (json : Json) : Option Source := do
  let (kind, rest) ← json.tagged? "kind"
  if kind = "dynamic" then do
    let fields ← rest.fields? [["definition"]]
    some (.dynamic (← fields.required? 0 Draft.ofJson?))
  else if kind = "static" then do
    let fields ← rest.fields? [["answers"]]
    some (.static (← fields.required? 0 (Json.asList? AnswerOption.ofJson?)))
  else none

/-- Reads a source from the text of a document. -/
def ofText? (source : String) : Option Source := Json.parse? source >>= ofJson?

/-- What a learner sees with a seed. -/
def instantiate (s : Source) (seed : UInt64) : Except Fault Variation :=
  match s with
  | .dynamic draft => Request.generate { draft } seed
  | .static answers => do
    if answers.isEmpty then throw .noAnswers
    if !answers.any (·.isCorrect) then throw .noCorrectAnswer
    let shuffled : Random.Draw Random.ChaCha (List AnswerOption) := Random.shuffle answers
    return ⟨[], (shuffled.run (Random.ChaCha.ofSeed seed)).1⟩

end Source

end FormulaQuiz
