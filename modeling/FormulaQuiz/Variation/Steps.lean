import FormulaQuiz.Variation.Inputs

/-!
# Running the equations

The equations run in the author's order.  Each gives its value to the alias of its left side, which
must be a final answer or a new name.  Before a right side is evaluated its identifiers are checked,
so that an author is told of a missing name by that name and not by an alias.
-/

namespace FormulaQuiz

open Formula (Bindings)

namespace Formula

/-- An identifier in a formula. -/
structure Symbol where
  name : String
  /-- Whether a parenthesis opens after it. -/
  isCalled : Bool
deriving DecidableEq, Repr

/-- Whether a character keeps an identifier after it from being one. -/
def joins (c : Char) : Bool := Text.isIdentifierChar c || c == '.'

/-- The identifiers of a text in order, after passing over its first `skip` characters; `before` is
the character to the left.  What follows a digit or a point is no identifier. -/
def symbolsFrom : (skip : Nat) → (before : Option Char) → List Char → List Symbol
  | _, _, [] => []
  | skip + 1, _, c :: cs => symbolsFrom skip (some c) cs
  | 0, before, c :: cs =>
    if Text.isIdentifierStart c then
      let tail := cs.takeWhile Text.isIdentifierChar
      let later := symbolsFrom tail.length (some c) cs
      if before.any joins then later
      else
        let next := (Text.trimLeft (cs.drop tail.length)).head?
        ⟨String.ofList (c :: tail), next == some '('⟩ :: later
    else symbolsFrom 0 (some c) cs

/-- The identifiers of a formula. -/
def symbols (source : String) : List Symbol := symbolsFrom 0 none source.toList

/-- Checks an identifier: a function must be known, a variable must have a value. -/
def checkSymbol (aliases : AliasTable) (b : Bindings) (s : Symbol) : Except Fault Unit :=
  if s.isCalled then
    if functionNames.contains s.name then .ok () else .error (.unsupported s.name)
  else if constantNames.contains s.name || b.contains s.name then .ok ()
  else match aliases.name? s.name with
    | some name => .error (.early name)
    | none => .error (.unknown s.name)

/-- Checks identifiers in order. -/
def checkSymbols (aliases : AliasTable) (b : Bindings) : List Symbol → Except Fault Unit
  | [] => .ok ()
  | s :: ss => do
    checkSymbol aliases b s
    checkSymbols aliases b ss

end Formula

/-- What is known while the equations run. -/
structure Progress where
  aliases : AliasTable
  bindings : Bindings
deriving Repr

/-- An action of the equations; what is known stays known when a fault is found. -/
abbrev Run (σ : Type) := ExceptT Fault (StateT Progress (Random.Draw σ))

namespace Step

/-- The report on an equation, with aliases in place of names. -/
def report (s : Step) (aliases : AliasTable) : StepReport where
  index := s.index
  expr := s.raw
  plain := Formula.plainText s.raw
  encoded := some (Formula.plainText (aliases.substitute s.raw))

variable {σ : Type} [Random.WordSource σ]

/-- Ends with a fault of the equation. -/
def fail {α : Type} (s : Step) (fault : StepFault) : Run σ α := do
  throw (.step fault (s.report (← get).aliases))

/-- The alias of a new name. -/
def newAlias (name : String) : Run σ String := do
  let progress ← get
  match progress.aliases.alias? name with
  | some word => return word
  | none =>
    let assigned : Trial σ (String × AliasTable) := progress.aliases.assign name
    let (word, aliases) ← ExceptT.mk (StateT.lift assigned.run)
    set { progress with aliases }
    return word

/-- The alias of the left side. -/
def target (q : Question) (s : Step) : Run σ String :=
  match q.declared? s.lhs with
  | none => newAlias s.lhs
  | some v =>
    if v.isFinalAnswer then do
      match (← get).aliases.alias? v.name with
      | some word => return word
      | none => s.fail (.noAlias v.name)
    else s.fail (.inputReassigned s.index v.name)

/-- The right side as it is evaluated. -/
def formula (s : Step) (aliases : AliasTable) : String :=
  Formula.plainText (aliases.substitute s.rhs)

/-- The value of the right side. -/
def value (s : Step) (progress : Progress) : Except Formula.Fault Float := do
  let source := s.formula progress.aliases
  Formula.checkSymbols progress.aliases progress.bindings (Formula.symbols source)
  Formula.evaluate progress.bindings source

/-- Runs an equation of a question: its left side gets the value of its right side. -/
def run (q : Question) (s : Step) : Run σ Float := do
  let word ← s.target q
  if (← get).bindings.contains word then s.fail (.rebound s.lhs)
  else
    let progress ← get
    match s.value progress with
    | .error fault => s.fail (.formula fault)
    | .ok x =>
      match progress.bindings.bind word x with
      | .error _ => s.fail (.bound s.lhs)
      | .ok bindings =>
        set { progress with bindings }
        return x

/-- Runs equations in order. -/
def runAll (q : Question) : List Step → Run σ Unit
  | [] => return
  | s :: ss => do
    let _ ← s.run q
    runAll q ss

end Step

end FormulaQuiz
