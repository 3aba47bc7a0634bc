import FormulaQuiz.Formula.Machine
import FormulaQuiz.Formula.Operation

/-!
# Calls

How functions are called, by name, as values and as methods.  Each definition takes the evaluation
of terms as a parameter, `eval`.
-/

namespace FormulaQuiz.Formula

/-- How many functions and scripts may run inside of each other. -/
def depthLimit : Nat := 64

namespace Callable

/-- The name under which a function value is looked for. -/
def name : Callable → String
  | .named name => name
  | .closure _ _ => "anon$"

end Callable

/-- A link with the values of its terms. -/
inductive LinkValue where
  | method (name : String) (arguments : List Value)
  | property (name : String)
  | index (optional : Bool) (v : Value)

namespace LinkValue

/-- The part of a value that a link leads to. -/
def get (v : Value) : LinkValue → Except Fault Value
  | .property name => getProperty name v
  | .index _ i => getIndex i v
  | .method _ _ => .error .failed

/-- A value with a new part where a link leads to. -/
def put (part v : Value) : LinkValue → Except Fault Value
  | .property name => putProperty name part v
  | .index _ i => putIndex i part v
  | .method _ _ => .error .failed

/-- A value with a part that has been changed where a link leads to, if there is one. -/
def update (part v : Value) : LinkValue → Value
  | .property name | .index _ (.text name) =>
    match v with
    | .record entries =>
      if (entries.lookup name).isSome then .record (Value.putEntry name part entries) else v
    | _ => v
  | .index _ (.integer n) =>
    match v with
    | .list items =>
      match placeAt? items.length n with
      | some place => .list (items.set place part)
      | none => v
    | _ => v
  | _ => v

/-- Whether a link that is optional finds no value to lead on from. -/
def isOver (v : Value) : LinkValue → Bool
  | .index true _ => (v matches .unit)
  | _ => false

end LinkValue

/-- What is known of the value that a link leads on from. -/
structure Base where
  /-- Whether it is the value of a constant. -/
  constant : Bool
  /-- Whether it is the value of a variable that a function keeps. -/
  shared : Bool
  /-- The cell of that variable; no function that keeps it may be called on the value. -/
  locked : Option Nat

namespace Base

/-- A value of no variable. -/
def free : Base := ⟨false, false, none⟩

/-- The value of a cell. -/
def ofCell (place : Nat) (c : Cell) : Base :=
  ⟨c.constant, c.shared, if c.shared then some place else none⟩

/-- A part of a value. -/
def part (base : Base) : Base := { base with shared := false }

/-- Whether a function with some arguments given may be called on a value. -/
def admits (base : Base) (given : List Argument) : Bool :=
  given.all fun
    | .cell place => base.locked != some place
    | .value _ => true

end Base

namespace Machine

variable (eval : Term → Machine Value)

/-- Counts a function or script that runs, while it does. -/
def deeper {α : Type} (m : Machine α) : Machine α := do
  let s ← get
  if s.depth < depthLimit then
    set { s with depth := s.depth + 1 }
    let a ← m
    modify ({ · with depth := s.depth })
    return a
  else throw (.fault .failed false)

/-- The value of an argument. -/
def argumentValue : Argument → Machine Value
  | .value v => return v
  | .cell place => return (← cell place).value

/-- The cells of parameters, before those of an older scope. -/
def bindParameters : List String → List Argument → (scope : List (String × Nat)) →
    Machine (List (String × Nat))
  | name :: names, .value v :: arguments, scope => do
    let place ← newCell v false
    bindParameters names arguments ((name, place) :: scope)
  | name :: names, .cell place :: arguments, scope =>
    bindParameters names arguments ((name, place) :: scope)
  | _, _, scope => return scope

/-- Runs the body of a function in a scope of its own. -/
def runBody (body : Term) (parameters : List String) (arguments : List Argument)
    (self : Option Nat) : Machine Value :=
  enclosed <| deeper do
    let scope ← bindParameters parameters arguments []
    modify ({ · with scope, self })
    tryCatch (eval body) fun
      | .result v => return v
      | i => throw i

/-- Calls a function value, on a value or on none; the value comes back as the call left it. -/
def callValue (base : Base) (f : Callable) (given : List Argument) (arguments : List Value)
    (on? : Option Value) : Machine (Value × Value) := do
  let all := given ++ arguments.map .value
  match f with
  | .closure parameters body =>
    if parameters.length = all.length then
      if !base.admits given then fail .failed
      else
        match on? with
        | none => return (← runBody eval body parameters all none, .unit)
        | some v =>
          let place ← newCell v base.constant
          let r ← runBody eval body parameters all (some place)
          return (r, (← cell place).value)
    else ofExcept (Value.unsupported f.name (on?.toList ++ (← all.mapM argumentValue)))
  | .named name =>
    let r ← ofExcept (applyFunction name (on?.toList ++ (← all.mapM argumentValue)))
    return (r, on?.getD .unit)

/-- Calls a method of a value; the value comes back as the call left it. -/
def callMethod (base : Base) (name : String) (arguments : List Value) (v : Value) :
    Machine (Value × Value) := do
  match name, v, arguments with
  | "call", .function f given, _ =>
    return ((← callValue eval base f given arguments none).1, v)
  | "call", _, .function f given :: rest => callValue eval base f given rest (some v)
  | "call", _, _ => fail .failed
  | "curry", .function f given, _ => return (.function f (given ++ arguments.map .value), v)
  | "curry", _, _ => fail .failed
  | "is_shared", _, [] => return (.truth base.shared, v)
  | _, .record entries, _ =>
    match entries.lookup name with
    | some (.function f given) => callValue eval base f given arguments (some v)
    | _ => return (← ofExcept (applyFunction name (v :: arguments)), v)
  | _, _, _ => return (← ofExcept (applyFunction name (v :: arguments)), v)

/-- What some links make of a value, and the value as they left it. -/
def followLinks (base : Base) : List LinkValue → Value → Machine (Value × Value)
  | [], v => return (v, v)
  | link :: links, v => do
    if link.isOver v then return (.unit, v)
    match link with
    | .method name arguments =>
      let (part, v) ← callMethod eval base name arguments v
      return ((← followLinks base.part links part).1, v)
    | link =>
      let part ← ofExcept (link.get v)
      let (r, part) ← followLinks base.part links part
      return (r, link.update part v)

/-- A value with a change of the part that some links lead to. -/
def changePart (change : Value → Machine Value) : List LinkValue → Value → Machine Value
  | [], v => change v
  | link :: links, v => do
    let part ← ofExcept (link.get v)
    ofExcept (link.put (← changePart change links part) v)

end Machine

end FormulaQuiz.Formula
