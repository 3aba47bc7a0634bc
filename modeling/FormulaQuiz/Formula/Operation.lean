import FormulaQuiz.Formula.Function

/-!
# Operators on values

What the operators compute.  Arithmetic takes floats and integers, and an integer beside a float is
a float.  Two floats are compared by their difference relative to the greater of them: they count as
equal when it is no greater than the distance from one to the next float.
-/

namespace FormulaQuiz.Formula

/-- A value with a plus or minus sign in front. -/
def applySign (minus : Bool) (v : Value) : Except Fault Value :=
  match v with
  | .float x => .ok (.float (if minus then -x else x))
  | .integer n => if minus then negateInteger n else .ok (.integer n)
  | _ => Value.unsupported (if minus then "-" else "+") [v]

/-- A value with an exclamation mark in front. -/
def negate : Value → Except Fault Value
  | .truth b => .ok (.truth (!b))
  | v => Value.unsupported "!" [v]

/-- The value of a comparison of two things, by which of less, equal and greater holds. -/
def Operator.compares? (op : Operator) (less equal greater : Bool) : Option Bool :=
  match op with
  | .less => some less
  | .lessEqual => some (less || equal)
  | .greater => some greater
  | .greaterEqual => some (greater || equal)
  | .equal => some equal
  | .unequal => some (!equal)
  | _ => none

/-- The distance from one to the next float. -/
def tolerance : Float := 2.220446049250313e-16

/-- The difference of two floats relative to the greater of their magnitudes; it is not divided if
their product is zero. -/
def relativeDifference (x y : Float) : Float :=
  if x * y == 0 then x - y else (x - y) / (if x.abs < y.abs then y.abs else x.abs)

/-- The value of a comparison of two floats; if their difference is no number, none holds. -/
def compareFloats? (op : Operator) (x y : Float) : Option Bool :=
  let difference := relativeDifference x y
  match op with
  | .less => some (difference < -tolerance)
  | .lessEqual => some (difference ≤ tolerance)
  | .greater => some (difference > tolerance)
  | .greaterEqual => some (difference ≥ -tolerance)
  | .equal => some (difference.abs ≤ tolerance)
  | .unequal => some (difference.abs > tolerance)
  | _ => none

/-- The value of an operator on two floats. -/
def floatOperator? (op : Operator) (x y : Float) : Option Value :=
  match op with
  | .add => some (.float (x + y))
  | .subtract => some (.float (x - y))
  | .multiply => some (.float (x * y))
  | .divide => some (.float (x / y))
  | .modulo => some (.float (remainder x y))
  | .power => some (.float (x.pow y))
  | _ => (compareFloats? op x y).map .truth

/-- The value of an operator on two integers. -/
def integerOperator? (op : Operator) (m n : Int) : Option (Except Fault Value) :=
  match op with
  | .add => some (checkedInteger .addition "+" m n (m + n))
  | .subtract => some (checkedInteger .subtraction "-" m n (m - n))
  | .multiply => some (checkedInteger .multiplication "*" m n (m * n))
  | .divide => some (
    if n = 0 then .error (.integer ⟨.divisionByZero, m, "/", n⟩)
    else checkedInteger .division "/" m n (m.tdiv n))
  | .modulo => some (
    if n = 0 ∨ !isWord (m.tdiv n) then .error (.integer ⟨.modulo, m, "%", n⟩)
    else .ok (.integer (m.tmod n)))
  | .power => some (integerPower m n)
  | _ =>
    match wordFunction? op.functionName with
    | some f => some (.ok (f m n))
    | none => (op.compares? (m < n) (m == n) (n < m)).map fun b ↦ .ok (.truth b)

/-- The value of an operator on two truth values, which have no order. -/
def truthOperator? (op : Operator) (a b : Bool) : Option Value :=
  match op with
  | .ampersand => some (.truth (a && b))
  | .pipe => some (.truth (a || b))
  | .equal => some (.truth (a == b))
  | .unequal => some (.truth (a != b))
  | .less | .lessEqual | .greater | .greaterEqual => some (.truth false)
  | _ => none

/-- The value of an operator on two texts or characters by their contents. -/
def contentOperator? (op : Operator) (s t : String) : Option Value :=
  match op with
  | .add => some (.text (s ++ t))
  | _ => (op.compares? (s < t) (s == t) (t < s)).map .truth

/-- The value of an operator on two texts or characters; subtraction from a text removes a content
wherever it stands. -/
def textOperator? (op : Operator) : Value → Value → Option Value
  | .text s, .text t =>
    if op = .subtract then some (.text (if t.isEmpty then s else s.replace t ""))
    else contentOperator? op s t
  | .text s, .character c =>
    if op = .subtract then some (.text (String.ofList (s.toList.filter (· != c))))
    else contentOperator? op s (String.singleton c)
  | .character c, .text t => contentOperator? op (String.singleton c) t
  | .character c, .character d => contentOperator? op (String.singleton c) (String.singleton d)
  | _, _ => none

/-- The value of an operator on two values without an operation of their own: values of different
types are different, and neither is less. -/
def mixedOperator (op : Operator) (v w : Value) : Except Fault Value :=
  match if v.typeName = w.typeName then none else op.compares? false false false with
  | some b => .ok (.truth b)
  | none => Value.unsupported op.functionName [v, w]

/-- The value of an operator on two values that is computed from both. -/
def applyOperator (op : Operator) (v w : Value) : Except Fault Value :=
  let result? : Option (Except Fault Value) :=
    match v, w with
    | .integer m, .integer n => integerOperator? op m n
    | .truth a, .truth b => (truthOperator? op a b).map .ok
    | .unit, .unit => (op.compares? false true false).map fun _ ↦ .ok (.truth (op == .equal))
    | .unit, .text t => if op = .add then some (.ok (.text t)) else none
    | .text s, .unit => if op = .add then some (.ok (.text s)) else none
    | v, w =>
      match v.toFloat?, w.toFloat? with
      | some x, some y => (floatOperator? op x y).map .ok
      | _, _ => (textOperator? op v w).map .ok
  result?.getD (mixedOperator op v w)

end FormulaQuiz.Formula
