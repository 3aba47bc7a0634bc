import FormulaQuiz.Decimal.Digits

/-!
# Why a formula has no value

Each cause is a constructor; `code` and `message` are what an author is told of it.
-/

namespace FormulaQuiz.Formula

/-- Why an operation on integers has no result. -/
inductive IntegerFault.Reason where
  | addition
  | subtraction
  | multiplication
  | divisionByZero
  | division
  | modulo
  | negativePower
  | power
deriving DecidableEq, Repr

/-- What is said of a reason. -/
def IntegerFault.Reason.text : IntegerFault.Reason → String
  | addition => "Addition overflow"
  | subtraction => "Subtraction overflow"
  | multiplication => "Multiplication overflow"
  | divisionByZero => "Division by zero"
  | division => "Division overflow"
  | modulo => "Modulo division by zero or overflow"
  | negativePower => "Integer raised to a negative power"
  | power => "Exponential overflow"

/-- An operation on integers without result. -/
structure IntegerFault where
  reason : IntegerFault.Reason
  left : Int
  symbol : String
  right : Int
deriving DecidableEq, Repr

/-- An integer in a message. -/
def integerText (n : Int) : String :=
  (if n < 0 then "-" else "") ++ Decimal.natText n.natAbs

/-- What is said of an operation on integers without result. -/
def IntegerFault.message (fault : IntegerFault) : String :=
  fault.reason.text ++ ": " ++ integerText fault.left ++ " " ++ fault.symbol ++ " " ++
    integerText fault.right

/-- Why a formula has no value. -/
inductive Fault where
  /-- The formula is not well formed. -/
  | malformed
  /-- A variable without value. -/
  | undefined (name : String)
  /-- A name that is neither an author's name with a value nor a constant. -/
  | unknown (name : String)
  /-- An author's name whose value is computed later. -/
  | early (name : String)
  /-- A function that there is not, or not for arguments of the types in the signature. -/
  | unsupported (signature : String)
  /-- An argument outside the domain of a function. -/
  | outside (function : String)
  | integer (fault : IntegerFault)
  /-- The negation of the least integer. -/
  | negation (n : Int)
  /-- The sign of a float that is not a number. -/
  | signless
  /-- A call of a function that lacks what it is to work on. -/
  | misused (function : String)
  /-- What a formula itself raises, as a text. -/
  | raised (text : String)
  /-- A value that is no finite number. -/
  | infinite
  /-- A value of a type without numbers. -/
  | notNumeric (type : String)
  /-- An operation that is not possible on its operands. -/
  | failed
  /-- A formula whose evaluation does not come to an end. -/
  | unending
deriving DecidableEq, Repr

namespace Fault

/-- The code of a fault. -/
def code : Fault → String
  | malformed => "EXPR_SYNTAX"
  | undefined _ | unknown _ | early _ => "EXPR_UNDEFINED_SYMBOL"
  | unsupported _ => "EXPR_UNKNOWN_FUNCTION"
  | outside _ | integer _ | negation _ | signless | misused _ | raised _ | infinite =>
    "EXPR_MATH_DOMAIN"
  | notNumeric _ => "EXPR_NOT_NUMERIC"
  | failed | unending => "EXPR_EVAL_FAILED"

/-- What an author is told of a fault. -/
def message : Fault → String
  | malformed => "Syntax error:"
  | undefined name => "Symbol \"" ++ name ++ "\" is not defined."
  | unknown name => "\"" ++ name ++ "\" is not a known variable."
  | early name => "\"" ++ name ++ "\" is used before it is defined."
  | unsupported signature => "Function \"" ++ signature ++ "\" is not supported."
  | outside function => function ++ "() argument is outside its domain."
  | integer fault => fault.message
  | negation n => "Negation overflow: -" ++ integerText n
  | signless => "Sign of NaN is undefined"
  | misused function =>
    "'" ++ function ++ "' should not be called this way. Try " ++ function ++ "(...);"
  | raised text => text
  | infinite => "Expression does not evaluate to a finite number."
  | notNumeric type => "Expression evaluates to " ++ type ++ " instead of a number."
  | failed | unending => "Expression eval failed:"

end Fault

end FormulaQuiz.Formula
