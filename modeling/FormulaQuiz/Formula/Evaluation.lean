import FormulaQuiz.Formula.Call
import FormulaQuiz.Formula.Grouping
import FormulaQuiz.Formula.Parser

/-!
# Evaluation of formulas

`evaluate` gives the number that a formula stands for, or the fault that keeps it from standing for
one.  A formula has a finite number as value or none.

One step of evaluation, `evalStep`, takes the evaluation of the terms in a term as a parameter;
`eval` repeats it as often as it is told.
-/

namespace FormulaQuiz.Formula

open Machine

namespace Term

section

variable (eval : Term → Machine Value)

/-- The values of the arguments of a call in order; a variable in front has its value last, unless
the call is strict. -/
def evalArguments (strict : Bool) : List Term → Machine (List Value)
  | .variable name :: arguments => do
    if strict && !(← get).scope.isEmpty then (Term.variable name :: arguments).mapM eval
    else
      let values ← arguments.mapM eval
      return (← eval (.variable name)) :: values
  | arguments => arguments.mapM eval

/-- The values in some links. -/
def evalLinks (links : List Link) : Machine (List LinkValue) :=
  links.mapM fun
    | .method name arguments => return .method name (← arguments.mapM eval)
    | .property name => return .property name
    | .index optional t => return .index optional (← eval t)

/-- The value of terms one after the other, which is that of the last. -/
def evalSequence : List Term → Machine Value
  | [] => return .unit
  | [t] => eval t
  | t :: ts => do
    let _ ← eval t
    evalSequence ts

/-- Whether a guard holds. -/
def evalGuard (guard : Term) : Machine Bool := do ofExcept (← eval guard).asTruth

/-- Whether a value is that of one of some patterns. -/
def matchesPattern (v : Value) : List Term → Machine Bool
  | [] => return false
  | pattern :: patterns => do
    if v.isSame (← eval pattern) then return true else matchesPattern v patterns

/-- The value of the first case that has a value among its patterns and whose guard holds. -/
def evalCases (v : Value) (otherwise : Term) : List Case → Machine Value
  | [] => eval otherwise
  | .mk patterns guard action :: cases => do
    if ← matchesPattern eval v patterns then
      if ← evalGuard eval guard then return ← eval action
    evalCases v otherwise cases

/-- A round of the body of a loop: the value of the loop, if the body ends it. -/
def evalRound (body : Term) : Machine (Option Value) :=
  tryCatch (do let _ ← eval body; return none) fun
    | .leave v => return some v
    | .next => return none
    | i => throw i

/-- The value of a block, or of another that handles its failure; raising nothing there raises the
same again. -/
def evalAttempt (body : Term) (name : Option String) (handler : Term) : Machine Value :=
  tryCatch (eval body) fun i =>
    match i.handled? with
    | none => throw i
    | some v => enclosed do
      for name in name do newVariable name v false
      tryCatch (eval handler) fun
        | .raised .unit => throw i
        | j => throw j

/-- The value of a script in a text, which is run where the text stands. -/
def evalScript (source : String) : Machine Value :=
  match ofScript? source with
  | none => fail .malformed
  | some ts =>
    tryCatch (deeper (evalSequence eval ts)) fun
      | .result v => return v
      | .fault f _ => fail f
      | i => throw i

/-- The argument that a term gives to a function: a variable that is kept already stays one. -/
def toArgument (t : Term) : Machine Argument := do
  match t with
  | .variable name =>
    let place ← place name
    let c ← cell place
    return if c.shared then .cell place else .value c.value
  | t => return .value (← eval t)

/-- Whether a term is a variable that a function keeps. -/
def isShared (t : Term) : Machine Bool := do
  match ← toArgument eval t with
  | .cell _ => return true
  | .value _ => return false

/-- The value of a function value at some terms; those of a name are taken as in any call. -/
def evalCallValue (f : Callable) (given : List Argument) (arguments : List Term) :
    Machine Value := do
  let values ← match f, given with
    | .named _, [] => evalArguments eval false arguments
    | _, _ => arguments.mapM eval
  return (← callValue eval .free f given values none).1

/-- The value of a call.  The words that evaluation keeps to itself look at their arguments one by
one. -/
def evalCall (name : String) (strict : Bool) (arguments : List Term) : Machine Value := do
  match name, arguments with
  | "call", f :: rest =>
    match ← eval f with
    | .function f given => evalCallValue eval f given rest
    | _ => fail .failed
  | "curry", f :: t :: ts =>
    match ← eval f with
    | .function f given => return .function f (given ++ (← (t :: ts).mapM (toArgument eval)))
    | _ => fail .failed
  | "eval", [t] =>
    let source ← ofExcept (← eval t).asText
    evalScript eval source
  | "Fn", [t] =>
    let name ← ofExcept (← eval t).asText
    if isFunctionName name then return .function (.named name) []
    else fail (.unsupported name)
  | "is_def_var", [t] =>
    let name ← ofExcept (← eval t).asText
    return .truth ((← get).scope.any (·.1 == name))
  | "is_def_fn", [t, n] =>
    let _ ← ofExcept (← eval t).asText
    let _ ← ofExcept (← eval n).asInteger
    return .truth false
  | "is_def_fn", [s, t, n] =>
    let _ ← ofExcept (← eval s).asText
    let _ ← ofExcept (← eval t).asText
    let _ ← ofExcept (← eval n).asInteger
    return .truth false
  | "is_shared", [t] => return .truth (← isShared eval t)
  | _, _ => ofExcept (applyFunction name (← evalArguments eval strict arguments))

/-- What some links make of the value of a cell, which may change. -/
def followCell (links : List LinkValue) (place : Nat) : Machine Value := do
  let c ← cell place
  let (r, v) ← followLinks eval (.ofCell place c) links c.value
  store place v
  return r

/-- The value of a chain; the terms in its links have their values before its base. -/
def evalChain (base : Term) (links : List Link) : Machine Value := do
  let links ← evalLinks eval links
  match base with
  | .variable name => followCell eval links (← place name)
  | .self => followCell eval links (← ownPlace)
  | t => return (← followLinks eval .free links (← eval t)).1

/-- Changes the part of a cell that some links lead to. -/
def changeCell (op : Option Operator) (links : List LinkValue) (new : Value) (place : Nat) :
    Machine Value := do
  let c ← cell place
  if c.constant then fail .failed
  let change (old : Value) : Machine Value :=
    match op with
    | none => return new
    | some op => ofExcept (applyOperator op old new)
  store place (← changePart change links c.value)
  return .unit

/-- Changes a place. -/
def evalAssign (op : Option Operator) (target value : Term) : Machine Value := do
  let new ← eval value
  let (base, links) := match target with
    | .chain base links => (base, links)
    | t => (t, [])
  let links ← evalLinks eval links
  match base with
  | .variable name => changeCell op links new (← place name)
  | .self => changeCell op links new (← ownPlace)
  | _ => fail .failed

/-- The value of a binary term. -/
def evalBinary (op : Operator) (left right : Term) : Machine Value := do
  match op with
  | .both =>
    if ← evalGuard eval left then return .truth (← evalGuard eval right) else return .truth false
  | .either =>
    if ← evalGuard eval left then return .truth true else return .truth (← evalGuard eval right)
  | .fallback =>
    match ← eval left with
    | .unit => eval right
    | v => return v
  | .within =>
    let whole ← eval right
    let part ← eval left
    ofExcept (Value.unsupported op.functionName [whole, part])
  | _ =>
    let v ← eval left
    let w ← eval right
    ofExcept (applyOperator op v w)

/-- The text of a part of a template, without blanks around it if it is no text itself. -/
def partText : Value → String
  | .text content => content
  | v => Text.trim v.display

/-- One step of evaluation; loops take no more than `rounds` rounds. -/
def evalStep (rounds : Nat) : Term → Machine Value
  | .unit => return .unit
  | .number x => return .float x
  | .integer n => return .integer n
  | .truth b => return .truth b
  | .text content => return .text content
  | .character c => return .character c
  | .list items => return .list (← items.mapM eval)
  | .record names items => return .ofEntries (names.zip (← items.mapM eval))
  | .template parts => return .text (String.join ((← parts.mapM eval).map partText))
  | .variable name => return (← cell (← place name)).value
  | .self => return (← cell (← ownPlace)).value
  | .foreign path name =>
    if path = ["global"] then fail (.undefined ("global::" ++ name)) else fail .failed
  | .signed minus t => do ofExcept (applySign minus (← eval t))
  | .negated t => do ofExcept (negate (← eval t))
  | .binary op left right => evalBinary eval op left right
  | .call name strict arguments => evalCall eval name strict arguments
  | .foreignCall _ _ arguments => do
    let _ ← evalArguments eval false arguments
    fail .failed
  | .chain base links => evalChain eval base links
  | .closure parameters captured body =>
    return .function (.closure (captured ++ parameters) body)
      ((← captured.mapM share).map .cell)
  | .declare constant name value => do
    newVariable name (← eval value) constant
    return .unit
  | .assign op target value => evalAssign eval op target value
  | .block body => enclosed (evalSequence eval body)
  | .conditional guard yes no => do if ← evalGuard eval guard then eval yes else eval no
  | .selection subject cases otherwise => do evalCases eval (← eval subject) otherwise cases
  | .whileLoop guard body =>
    iterate (do if ← evalGuard eval guard then evalRound eval body else return some .unit) rounds
  | .doLoop body guard goesOn =>
    iterate (do
      if let some v ← evalRound eval body then return some v
      if (← evalGuard eval guard) = goesOn then return none else return some .unit) rounds
  | .forLoop _ items _ => do
    let _ ← eval items
    fail .failed
  | .leave value => do throw (.leave (← eval value))
  | .next => throw .next
  | .result value => do throw (.result (← eval value))
  | .raise value => do throw (.raised (← eval value))
  | .attempt body name handler => evalAttempt eval body name handler
  | .loadModule path => do
    let _ ← eval path
    fail .failed
  | .publish name => do
    let _ ← place name
    return .unit

end

/-- The value of a term, found in no more than `steps` steps inside of each other. -/
def eval : (steps : Nat) → Term → Machine Value
  | 0, _ => throw .exhausted
  | steps + 1, t => t.evalStep (eval steps) steps

end Term

/-- How many steps inside of each other, and rounds of a loop, evaluation takes before it is given
up as unending. -/
def stepLimit : Nat := 1 <<< 32

/-- The number that a formula stands for when its variables have the given values. -/
def evaluate (b : Bindings) (source : String) : Except Fault Float :=
  match Term.ofFormula? (evaluationText source) with
  | none => .error .malformed
  | some t =>
    match t.eval stepLimit (.initial b) with
    | .ok v _ => v.toFinite
    | .error i _ => .error i.toFault

end FormulaQuiz.Formula
