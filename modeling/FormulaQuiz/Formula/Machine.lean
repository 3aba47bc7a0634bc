import FormulaQuiz.Formula.Bindings
import FormulaQuiz.Formula.Display
import FormulaQuiz.Formula.Vocabulary

/-!
# The state of an evaluation

Evaluation keeps the values of variables in cells.  A scope tells which cell a name stands for, so
that a function and its surroundings may share a variable.  What has been changed stays changed when
evaluation is interrupted.
-/

namespace FormulaQuiz.Formula

/-- The value of a variable. -/
structure Cell where
  value : Value
  /-- Whether the value may not be changed. -/
  constant : Bool
  /-- Whether a function keeps the variable. -/
  shared : Bool

/-- What is known while a formula is evaluated. -/
structure State where
  cells : Array Cell
  /-- The cells that names stand for, the newest first. -/
  scope : List (String × Nat)
  /-- The cell that the running function was called on. -/
  self : Option Nat
  /-- How many functions and scripts are running inside of each other. -/
  depth : Nat

/-- Why evaluation does not go on to the next term. -/
inductive Interrupt where
  /-- A fault, with whether an attempt may handle it. -/
  | fault (f : Fault) (handled : Bool)
  /-- A value that is raised. -/
  | raised (v : Value)
  /-- The end of a loop. -/
  | leave (v : Value)
  /-- The end of a round of a loop. -/
  | next
  /-- The end of a function or script. -/
  | result (v : Value)
  /-- The end of the steps that evaluation may take. -/
  | exhausted

/-- The fault that an interruption of a whole formula is; the end of a loop or function never leaves
it. -/
def Interrupt.toFault : Interrupt → Fault
  | .fault f _ => f
  | .raised v => .raised v.display
  | .leave _ | .next | .result _ => .failed
  | .exhausted => .unending

/-- What an attempt is told of an interruption that it handles; none, if it does not. -/
def Interrupt.handled? : Interrupt → Option Value
  | .raised v => some v
  | .fault f true =>
    match f with
    | .outside _ | .misused _ => some (.text f.message)
    | _ => some (.record [("message", .text f.message)])
  | _ => none

/-- An action of an evaluation. -/
abbrev Machine := EStateM Interrupt State

namespace Machine

variable {α : Type}

/-- Interrupts with a fault that an attempt may handle. -/
def fail (f : Fault) : Machine α := throw (.fault f true)

/-- Gives a value, or interrupts with the fault that there is in its place. -/
def ofExcept : Except Fault α → Machine α
  | .ok a => return a
  | .error f => fail f

/-- Makes a new cell. -/
def newCell (v : Value) (constant : Bool) : Machine Nat := do
  let s ← get
  set { s with cells := s.cells.push ⟨v, constant, false⟩ }
  return s.cells.size

/-- Makes a new variable. -/
def newVariable (name : String) (v : Value) (constant : Bool) : Machine Unit := do
  let place ← newCell v constant
  modify fun s ↦ { s with scope := (name, place) :: s.scope }

/-- The cell that a name stands for. -/
def place (name : String) : Machine Nat := do
  match (← get).scope.lookup name with
  | some place => return place
  | none => fail (.undefined name)

/-- The cell that the running function was called on. -/
def ownPlace : Machine Nat := do
  match (← get).self with
  | some place => return place
  | none => fail .failed

/-- The content of a cell. -/
def cell (place : Nat) : Machine Cell := do
  match (← get).cells[place]? with
  | some cell => return cell
  | none => fail .failed

/-- Gives a cell a value. -/
def store (place : Nat) (v : Value) : Machine Unit :=
  modify fun s ↦ { s with cells := s.cells.modify place fun c ↦ { c with value := v } }

/-- Marks the variable of a name as one that a function keeps. -/
def share (name : String) : Machine Nat := do
  let place ← place name
  modify fun s ↦ { s with cells := s.cells.modify place fun c ↦ { c with shared := true } }
  return place

/-- Runs an action; the scope is afterwards what it was before, also after an interruption. -/
def enclosed (m : Machine α) : Machine α := fun s ↦
  let leaving (t : State) : State := { s with cells := t.cells }
  match m s with
  | .ok a t => .ok a (leaving t)
  | .error i t => .error i (leaving t)

/-- Repeats a round until it gives a value. -/
def iterate (round : Machine (Option α)) : (rounds : Nat) → Machine α
  | 0 => throw .exhausted
  | rounds + 1 => do
    match ← round with
    | some a => return a
    | none => iterate round rounds

end Machine

/-- The value of a constant. -/
def constant? : String → Option Float
  | "pi" => some 3.141592653589793
  | "e" => some 2.718281828459045
  | _ => none

/-- The state in which a formula is evaluated: the constants, and variables, which may hide them. -/
def State.initial (b : Bindings) : State :=
  let constants := constantNames.filterMap fun name ↦ (constant? name).map (name, ·)
  let entries := constants.map (·, true) ++ b.entries.map (·, false)
  { cells := (entries.map fun ((_, x), constant) ↦ (⟨.float x, constant, false⟩ : Cell)).toArray
    scope := (entries.mapIdx fun place ((name, _), _) ↦ (name, place)).reverse
    self := none
    depth := 0 }

end FormulaQuiz.Formula
