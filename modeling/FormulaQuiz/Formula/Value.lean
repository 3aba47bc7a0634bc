import FormulaQuiz.Formula.Fault
import FormulaQuiz.Formula.Term
import FormulaQuiz.Number.Integral

/-!
# Values of terms

Nearly all values are floats.  Comparisons give truth values, the sign of a number is an integer,
and there are texts, characters, lists, records and functions; none but the numbers can be the value
of a formula.
-/

namespace FormulaQuiz.Formula

/-- What a function value calls. -/
inductive Callable where
  /-- The function of a name. -/
  | named (name : String)
  /-- A function without name, with all its parameters. -/
  | closure (parameters : List String) (body : Term)

mutual

/-- The value of a term. -/
inductive Value where
  /-- The value of what has no value of its own. -/
  | unit
  | float (x : Float)
  /-- An integer of 64 bits. -/
  | integer (n : Int)
  | truth (b : Bool)
  | text (content : String)
  | character (c : Char)
  | list (items : List Value)
  /-- Items under names, in the order of the names. -/
  | record (entries : List (String × Value))
  /-- A function with the arguments that it has got already. -/
  | function (f : Callable) (given : List Argument)

/-- What a parameter of a function stands for. -/
inductive Argument where
  | value (v : Value)
  /-- A variable that the function shares with its surroundings. -/
  | cell (place : Nat)

end

namespace Value

/-- The name of a value's type. -/
def typeName : Value → String
  | unit => "()"
  | float _ => "f64"
  | integer _ => "i64"
  | truth _ => "bool"
  | text _ => "string"
  | character _ => "char"
  | list _ => "array"
  | record _ => "map"
  | function _ _ => "Fn"

/-- The name of a value's type in a signature. -/
def signatureName : Value → String
  | text _ => "&str | ImmutableString | String"
  | v => v.typeName

/-- A function's name with the types of its arguments. -/
def signature (function : String) (arguments : List Value) : String :=
  function ++ " (" ++ ", ".intercalate (arguments.map signatureName) ++ ")"

/-- The fault that no function of a name takes the arguments. -/
def unsupported {α : Type} (function : String) (arguments : List Value) : Except Fault α :=
  .error (.unsupported (signature function arguments))

/-- The number that a value is, if it is one. -/
def toFloat? : Value → Option Float
  | float x => some x
  | integer n => some (Float.ofInt n)
  | _ => none

/-- The finite number that a value is. -/
def toFinite (v : Value) : Except Fault Float :=
  match v.toFloat? with
  | some x => if x.isFinite then .ok x else .error .infinite
  | none => .error (.notNumeric v.typeName)

/-- The truth value that a value is. -/
def asTruth : Value → Except Fault Bool
  | truth b => .ok b
  | _ => .error .failed

/-- The text that a value is. -/
def asText : Value → Except Fault String
  | text content => .ok content
  | _ => .error .failed

/-- The integer that a value is. -/
def asInteger : Value → Except Fault Int
  | integer n => .ok n
  | _ => .error .failed

mutual

/-- Whether a value is the same as another: of the same type, and equal to the bit. -/
def isSame : Value → Value → Bool
  | unit, unit => true
  | float x, float y => x.toBits == y.toBits
  | integer m, integer n => m == n
  | truth a, truth b => a == b
  | text s, text t => s == t
  | character c, character d => c == d
  | list vs, list ws => areSame vs ws
  | record vs, record ws => haveSameEntries vs ws
  | _, _ => false

/-- Whether values are the same one by one. -/
def areSame : List Value → List Value → Bool
  | [], [] => true
  | v :: vs, w :: ws => v.isSame w && areSame vs ws
  | _, _ => false

/-- Whether entries of records are the same one by one. -/
def haveSameEntries : List (String × Value) → List (String × Value) → Bool
  | [], [] => true
  | v :: vs, w :: ws => isSameEntry v w && haveSameEntries vs ws
  | _, _ => false

/-- Whether an entry of a record is the same as another. -/
def isSameEntry : String × Value → String × Value → Bool
  | (k, v), (l, w) => k == l && v.isSame w

end

/-- Entries in the order of their names, with a value put under a name. -/
def putEntry (name : String) (v : Value) : List (String × Value) → List (String × Value)
  | [] => [(name, v)]
  | (k, w) :: entries =>
    if name < k then (name, v) :: (k, w) :: entries
    else if name = k then (name, v) :: entries
    else (k, w) :: putEntry name v entries

/-- The record with some values under some names. -/
def ofEntries (entries : List (String × Value)) : Value :=
  .record (entries.foldl (fun sorted (name, v) ↦ putEntry name v sorted) [])

end Value

end FormulaQuiz.Formula
