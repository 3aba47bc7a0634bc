import FormulaQuiz.Formula.Lexeme

/-!
# Grouping powers under signs

Authors read `-x^2` as `-(x^2)`, while evaluation binds a sign tighter than a power.  A sign in
front of a chain of powers therefore gets parentheses around the chain.
-/

namespace FormulaQuiz.Formula

namespace Lexeme

/-- Whether an operand may end with the lexeme, so that a sign after it stands between operands. -/
def endsOperand : Lexeme → Bool
  | .numeral _ | .word _ | .closing => true
  | _ => false

end Lexeme

/-- How many lexemes there are up to the one that closes the outermost of `depth` open parentheses
and those opened on the way. -/
def closingLength : (depth : Nat) → List Lexeme → Option Nat
  | _, [] => none
  | depth, .opening :: ls => (closingLength (depth + 1) ls).map (· + 1)
  | depth, .closing :: ls =>
    if depth - 1 = 0 then some 1 else (closingLength (depth - 1) ls).map (· + 1)
  | depth, _ :: ls => (closingLength depth ls).map (· + 1)

/-- How many lexemes the operand in front has: signs, then a numeral, a name, a call or a group. -/
def operandLength : List Lexeme → Option Nat
  | .sign _ :: ls => (operandLength ls).map (· + 1)
  | .numeral _ :: _ => some 1
  | .word _ :: .opening :: ls => (closingLength 1 ls).map (· + 2)
  | .word _ :: _ => some 1
  | .opening :: ls => (closingLength 1 ls).map (· + 1)
  | _ => none

/-- How many lexemes the powers after an operand have, passing over the first `skip` lexemes; none
if an exponent is missing. -/
def powersLength : (skip : Nat) → List Lexeme → Option Nat
  | skip + 1, _ :: ls => (powersLength skip ls).map (· + 1)
  | 0, .power _ :: ls => do
    let operand ← operandLength ls
    let rest ← powersLength operand ls
    some (rest + 1)
  | _, _ => some 0

/-- How many lexemes the chain of powers in front has; none if there is an operand without power. -/
def chainLength (ls : List Lexeme) : Option Nat := do
  let operand ← operandLength ls
  let all ← powersLength operand ls
  if all = operand then none else some all

/-- The lexemes with parentheses around each chain of powers under a sign; `afterOperand` says
whether the text to the left ends an operand. -/
def groupFrom (afterOperand : Bool) : List Lexeme → List Lexeme
  | [] => []
  | .sign minus :: ls =>
    match (if afterOperand then none else chainLength ls) with
    | some n =>
      .sign minus :: .opening :: groupFrom false (ls.take n) ++
        .closing :: groupFrom true (ls.drop n)
    | none => .sign minus :: groupFrom false ls
  | l :: ls => l :: groupFrom l.endsOperand ls
termination_by ls => ls.length
decreasing_by all_goals (simp only [List.length_cons, List.length_take, List.length_drop]; omega)

/-- The lexemes with parentheses around each chain of powers under a sign. -/
def grouped (ls : List Lexeme) : List Lexeme := groupFrom false ls

/-- A formula as it is evaluated, its lexemes separated by single spaces. -/
def evaluationText (source : String) : String :=
  String.ofList ([' '].intercalate ((grouped (lexemes source)).map Lexeme.render))

end FormulaQuiz.Formula
