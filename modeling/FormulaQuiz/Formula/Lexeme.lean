import FormulaQuiz.Decimal.Notation
import FormulaQuiz.Decimal.Numeral
import FormulaQuiz.Text.Blank
import FormulaQuiz.Text.Identifier

/-!
# Lexemes of a formula

A formula is split by longest match; blanks only separate.  Text that belongs to no other class is
kept as it stands, so that nothing is lost.
-/

namespace FormulaQuiz.Formula

/-- A piece of a formula. -/
inductive Lexeme where
  /-- A numeral as written. -/
  | numeral (text : String)
  /-- An identifier. -/
  | word (text : String)
  /-- The power operator, written as a caret or as two stars. -/
  | power (stars : Bool)
  /-- A plus or minus sign, between operands or in front of one. -/
  | sign (minus : Bool)
  /-- A star, slash or percent sign. -/
  | operator (symbol : Char)
  | opening
  | closing
  | comma
  /-- Anything else. -/
  | other (text : String)
deriving DecidableEq, Repr

namespace Lexeme

/-- The lexeme as it is written in a formula. -/
def spelling : Lexeme → List Char
  | .numeral text | .word text | .other text => text.toList
  | .power stars => if stars then ['*', '*'] else ['^']
  | .sign minus => [if minus then '-' else '+']
  | .operator symbol => [symbol]
  | .opening => ['(']
  | .closing => [')']
  | .comma => [',']

/-- A number as a float literal: the fewest digits that read back, always with a point. -/
def floatLiteral (x : Float) : List Char :=
  let text := Decimal.Layout.plain.chars x
  if text.contains '.' then text else text ++ ".0".toList

/-- The lexeme as it is written for evaluation: numerals as float literals, the power operator as
two stars. -/
def render : Lexeme → List Char
  | .numeral text => floatLiteral (Decimal.numeralValue text.toList)
  | .power _ => ['*', '*']
  | lexeme => lexeme.spelling

/-- Whether a character continues a lexeme of class `other`. -/
def isOther (c : Char) : Bool :=
  !(Text.isBlank c || Text.isIdentifierChar c || ".^*+-/%(),".toList.contains c)

/-- The lexeme that begins with `c`, followed by `cs`; `c` is not blank. -/
def read (c : Char) (cs : List Char) : Lexeme :=
  if Text.isIdentifierStart c then
    .word (String.ofList (c :: cs.takeWhile Text.isIdentifierChar))
  else if Decimal.isDigit c || c == '.' && cs.head?.any Decimal.isDigit then
    .numeral (String.ofList (Decimal.splitNumeral (c :: cs)).1)
  else match c with
    | '^' => .power false
    | '*' => if cs.head? = some '*' then .power true else .operator '*'
    | '+' => .sign false
    | '-' => .sign true
    | '/' => .operator '/'
    | '%' => .operator '%'
    | '(' => .opening
    | ')' => .closing
    | ',' => .comma
    | _ => .other (String.ofList (c :: cs.takeWhile isOther))

end Lexeme

/-- The lexemes of a text after passing over its first `skip` characters, which belong to a lexeme
read already. -/
def lexemesFrom : (skip : Nat) → List Char → List Lexeme
  | _, [] => []
  | skip + 1, _ :: cs => lexemesFrom skip cs
  | 0, c :: cs =>
    if Text.isBlank c then lexemesFrom 0 cs
    else
      let lexeme := Lexeme.read c cs
      lexeme :: lexemesFrom (lexeme.spelling.length - 1) cs

/-- The lexemes of a formula. -/
def lexemes (source : String) : List Lexeme := lexemesFrom 0 source.toList

end FormulaQuiz.Formula
