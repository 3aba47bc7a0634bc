import FormulaQuiz.Formula.Integer
import FormulaQuiz.Number.CubeRoot
import FormulaQuiz.Number.Integral

/-!
# Functions on values

What the functions of a name compute.  The functions of authors take floats only; a few others ask
for the sign, the parity or the type of a value.
-/

namespace FormulaQuiz.Formula

/-- A function of one float with its domain. -/
structure FloatFunction where
  /-- Whether the function is defined at a float. -/
  domain : Float → Bool
  apply : Float → Float

/-- A function that is defined everywhere. -/
def FloatFunction.total (apply : Float → Float) : FloatFunction := ⟨fun _ ↦ true, apply⟩

/-- Whether a float lies between minus one and one. -/
def isCosine (x : Float) : Bool := -1 ≤ x && x ≤ 1

/-- The functions of one float by name. -/
def floatFunction? : String → Option FloatFunction
  | "sin" => some (.total Float.sin)
  | "cos" => some (.total Float.cos)
  | "tan" => some (.total Float.tan)
  | "asin" => some ⟨isCosine, Float.asin⟩
  | "acos" => some ⟨isCosine, Float.acos⟩
  | "atan" => some (.total Float.atan)
  | "sinh" => some (.total Float.sinh)
  | "cosh" => some (.total Float.cosh)
  | "tanh" => some (.total Float.tanh)
  | "sqrt" => some ⟨fun x ↦ x ≥ 0, Float.sqrt⟩
  | "cbrt" => some (.total cubeRoot)
  | "exp" => some (.total Float.exp)
  | "abs" => some (.total Float.abs)
  | "floor" => some (.total (toIntegral .down))
  | "ceil" => some (.total (toIntegral .up))
  | "round" => some (.total (toIntegral .nearest))
  | "log" => some ⟨fun x ↦ x > 0, Float.log⟩
  | "ln" => some ⟨fun x ↦ x > 0, Float.log⟩
  | "log10" => some ⟨fun x ↦ x > 0, Float.log10⟩
  | "log2" => some ⟨fun x ↦ x > 0, Float.log2⟩
  | _ => none

/-- The logarithm of a float to a base. -/
def logarithm (x base : Float) : Except Fault Value :=
  if x ≤ 0 || base ≤ 0 || base == 1 then .error (.outside "log")
  else .ok (.float (x.log / base.log))

/-- A power of a float, which must be a number. -/
def realPower (x y : Float) : Except Fault Value :=
  let z := x.pow y
  if z.isNaN then .error (.outside "pow") else .ok (.float z)

/-- The sign of a float as an integer. -/
def floatSign (x : Float) : Except Fault Value :=
  if x == 0 then .ok (.integer 0)
  else if x.isNaN then .error .signless
  else .ok (.integer (if x < 0 then -1 else 1))

/-- A function of integers, or one of floats that gives no float. -/
def otherFunction? : String → Value → Option (Except Fault Value)
  | "abs", .integer n => some (if n < 0 then negateInteger n else .ok (.integer n))
  | "sign", .integer n => some (.ok (.integer n.sign))
  | "sign", .float x => some (floatSign x)
  | "is_zero", .integer n => some (.ok (.truth (n == 0)))
  | "is_zero", .float x => some (.ok (.truth (x == 0)))
  | "is_odd", .integer n => some (.ok (.truth (n % 2 == 1)))
  | "is_even", .integer n => some (.ok (.truth (n % 2 == 0)))
  | "type_of", v => some (.ok (.text v.typeName))
  | "curry", _ => some (.error (.misused "curry"))
  | _, _ => none

/-- A function of one value. -/
def applyOne (name : String) (v : Value) : Except Fault Value :=
  match otherFunction? name v with
  | some result => result
  | none =>
    match floatFunction? name, v with
    | some f, .float x => if f.domain x then .ok (.float (f.apply x)) else .error (.outside name)
    | _, _ => Value.unsupported name [v]

/-- The functions of two words by name; they are called by operators, and by function values. -/
def wordFunction? : String → Option (Int → Int → Value)
  | "<<" => some shiftedInteger
  | ">>" => some fun m n ↦ shiftedInteger m (-n)
  | "&" => some fun m n ↦ wordValue (BitVec.ofInt 64 m &&& BitVec.ofInt 64 n)
  | "|" => some fun m n ↦ wordValue (BitVec.ofInt 64 m ||| BitVec.ofInt 64 n)
  | _ => none

/-- The value of a named function at some arguments. -/
def applyFunction (name : String) (arguments : List Value) : Except Fault Value :=
  match arguments with
  | [v] => applyOne name v
  | [.float x, .float y] =>
    if name = "log" then logarithm x y
    else if name = "pow" then realPower x y
    else Value.unsupported name arguments
  | [.integer m, .integer n] =>
    match wordFunction? name with
    | some f => .ok (f m n)
    | none => Value.unsupported name arguments
  | _ => Value.unsupported name arguments

/-- A property of a value, written after a point: the item of a record, or a question about a
number. -/
def getProperty (name : String) : Value → Except Fault Value
  | .record entries => .ok ((entries.lookup name).getD .unit)
  | v =>
    if name = "is_zero" ∨ name = "is_odd" ∨ name = "is_even" then
      (otherFunction? name v).getD (.error .failed)
    else .error .failed

/-- A value with a new part under a name; only records have such parts. -/
def putProperty (name : String) (part : Value) : Value → Except Fault Value
  | .record entries => .ok (.record (Value.putEntry name part entries))
  | _ => .error .failed

/-- A part of a value, by an index in brackets. -/
def getIndex (index v : Value) : Except Fault Value :=
  let part? : Option Value :=
    match v, index with
    | .list items, .integer n => placeAt? items.length n >>= (items[·]?)
    | .record entries, .text name => some ((entries.lookup name).getD .unit)
    | .text content, .integer n =>
      (placeAt? content.toList.length n >>= (content.toList[·]?)).map .character
    | .integer m, .integer n => (placeAt? 64 n).map fun place ↦ .truth (bitAt m place)
    | _, _ => none
  part?.elim (.error .failed) .ok

/-- A value with a new part at an index. -/
def putIndex (index part v : Value) : Except Fault Value :=
  let changed? : Option Value :=
    match v, index, part with
    | .list items, .integer n, part =>
      (placeAt? items.length n).map fun k ↦ .list (items.set k part)
    | .record entries, .text name, part => some (.record (Value.putEntry name part entries))
    | .text content, .integer n, .character c =>
      (placeAt? content.toList.length n).map fun k ↦ .text (String.ofList (content.toList.set k c))
    | .integer m, .integer n, .truth b => (placeAt? 64 n).map fun place ↦ withBit m place b
    | _, _, _ => none
  changed?.elim (.error .failed) .ok

end FormulaQuiz.Formula
