/-!
# Operators

The operators that stand between two operands.  Authors are told of the arithmetic ones only;
evaluation knows comparisons, logic and operations on bits as well.
-/

namespace FormulaQuiz.Formula

/-- An operator between two operands. -/
inductive Operator where
  | pipe
  | either
  | ampersand
  | both
  | equal
  | unequal
  | within
  | less
  | lessEqual
  | greater
  | greaterEqual
  | fallback
  | add
  | subtract
  | multiply
  | divide
  | modulo
  | power
  | shiftLeft
  | shiftRight
deriving DecidableEq, Repr

namespace Operator

/-- How tightly an operator binds. -/
def precedence : Operator → Nat
  | pipe | either => 30
  | ampersand | both => 60
  | equal | unequal => 90
  | within => 110
  | less | lessEqual | greater | greaterEqual => 130
  | fallback => 135
  | add | subtract => 150
  | multiply | divide | modulo => 180
  | power => 190
  | shiftLeft | shiftRight => 210

/-- Whether a chain of one operator groups to the right. -/
def groupsRight (op : Operator) : Bool := op == power

/-- Whether an operator that follows `op` takes the operand between them. -/
def yieldsTo (op next : Operator) : Bool :=
  decide (op.precedence < next.precedence) ||
    op.groupsRight && decide (op.precedence = next.precedence)

/-- The name of the function that an operator calls. -/
def functionName : Operator → String
  | pipe => "|"
  | either => "||"
  | ampersand => "&"
  | both => "&&"
  | equal => "=="
  | unequal => "!="
  | within => "contains"
  | less => "<"
  | lessEqual => "<="
  | greater => ">"
  | greaterEqual => ">="
  | fallback => "??"
  | add => "+"
  | subtract => "-"
  | multiply => "*"
  | divide => "/"
  | modulo => "%"
  | power => "**"
  | shiftLeft => "<<"
  | shiftRight => ">>"

end Operator

end FormulaQuiz.Formula
