import FormulaQuiz.Decimal.Numeral
import FormulaQuiz.Formula.Operator
import FormulaQuiz.Text.Blank
import FormulaQuiz.Text.Identifier

/-!
# Tokens of a formula under evaluation

Evaluation reads a richer language than authors are told of, with texts, lists, conditions and
functions.  Its tokens are found by longest match.  A template, which is a text with blocks in it,
is cut into its texts and the tokens of its blocks.
-/

namespace FormulaQuiz.Formula

/-- A token of a formula under evaluation. -/
inductive Token where
  | number (x : Float)
  | integer (n : Nat)
  /-- A name or a word of the language. -/
  | word (name : String)
  | text (content : String)
  | character (c : Char)
  /-- The text of a template up to a block. -/
  | templateText (content : String)
  /-- A plus or minus sign, between operands or in front of one. -/
  | sign (minus : Bool)
  /-- Any other operator. -/
  | operator (op : Operator)
  /-- An operator with an equals sign, which changes what stands to its left. -/
  | assignment (op : Operator)
  | equals
  | bang
  | opening
  | closing
  | openBracket
  /-- An opening bracket after a question mark. -/
  | optionalBracket
  | closeBracket
  | openBrace
  | closeBrace
  /-- An opening brace after a number sign. -/
  | openRecord
  | comma
  | point
  | colon
  | doubleColon
  | arrow
  | semicolon
deriving BEq, Repr

namespace Token

/-- The symbols and the tokens that they are; the reserved ones are none.  A symbol stands before
all that begin it. -/
def symbols : List (List Char × Option Token) :=
  [("===", none), ("!==", none), ("::<", none),
    ("<<=", some (.assignment .shiftLeft)), (">>=", some (.assignment .shiftRight)),
    ("**=", some (.assignment .power)),
    ("==", some (.operator .equal)), ("!=", some (.operator .unequal)),
    ("<=", some (.operator .lessEqual)), (">=", some (.operator .greaterEqual)),
    ("<<", some (.operator .shiftLeft)), (">>", some (.operator .shiftRight)),
    ("&&", some (.operator .both)), ("||", some (.operator .either)),
    ("??", some (.operator .fallback)), ("**", some (.operator .power)),
    ("&=", some (.assignment .ampersand)), ("|=", some (.assignment .pipe)),
    ("+=", some (.assignment .add)), ("-=", some (.assignment .subtract)),
    ("*=", some (.assignment .multiply)), ("/=", some (.assignment .divide)),
    ("%=", some (.assignment .modulo)),
    ("?[", some .optionalBracket), ("=>", some .arrow), ("::", some .doubleColon),
    ("#\x7b", some .openRecord),
    ("<|", none), ("|>", none), (":=", none), (":;", none),
    ("+", some (.sign false)), ("-", some (.sign true)), ("*", some (.operator .multiply)),
    ("/", some (.operator .divide)), ("%", some (.operator .modulo)),
    ("<", some (.operator .less)), (">", some (.operator .greater)),
    ("&", some (.operator .ampersand)), ("|", some (.operator .pipe)),
    ("=", some .equals), ("!", some .bang), ("(", some .opening), (")", some .closing),
    ("[", some .openBracket), ("]", some .closeBracket), ("\x7b", some .openBrace),
    ("\x7d", some .closeBrace), (",", some .comma), (".", some .point), (":", some .colon),
    (";", some .semicolon)].map fun (symbol, token?) ↦ (symbol.toList, token?)

/-- The symbol in front of a text, with its length. -/
def symbol? (cs : List Char) : Option (Token × Nat) := do
  let (symbol, token?) ← symbols.find? fun (symbol, _) ↦ symbol.isPrefixOf cs
  return (← token?, symbol.length)

/-- The number in front of a text, with its length; without point and exponent it is an
integer, if it has no more than 64 bits. -/
def numeral (cs : List Char) : Token × Nat :=
  let numeral := (Decimal.splitNumeral cs).1
  let token :=
    if numeral.all Decimal.isDigit && decide (Decimal.value numeral < 1 <<< 63) then
      Token.integer (Decimal.value numeral)
    else .number (Decimal.numeralValue numeral)
  (token, numeral.length)

/-- The content of a literal up to its closing quote, and the number of characters up to and
including the quote.  A quote in the content is written twice or after a backslash, and a backslash
is written twice. -/
def quoted? (quote : Char) : List Char → Option (List Char × Nat)
  | [] => none
  | c :: cs =>
    if c = quote then
      match cs with
      | d :: ds =>
        if d = quote then (quoted? quote ds).map fun (content, n) ↦ (quote :: content, n + 2)
        else some ([], 1)
      | [] => some ([], 1)
    else if c = '\\' then
      match cs with
      | d :: ds =>
        if d = '\\' ∨ d = quote then
          (quoted? quote ds).map fun (content, n) ↦ (d :: content, n + 2)
        else none
      | [] => none
    else (quoted? quote cs).map fun (content, n) ↦ (c :: content, n + 1)

/-- The content of a raw literal, which ends with a quote and as many number signs as it began
with, and the number of characters up to and including them. -/
def rawQuoted? (signs : List Char) : List Char → Option (List Char × Nat)
  | [] => none
  | c :: cs =>
    if c = '"' ∧ signs.isPrefixOf cs then some ([], signs.length + 1)
    else (rawQuoted? signs cs).map fun (content, n) ↦ (c :: content, n + 1)

/-- The literal in front of a text, with its length. -/
def literal? (c : Char) (cs : List Char) : Option (Token × Nat) := do
  if c = '"' then
    let (content, n) ← quoted? c cs
    return (.text (String.ofList content), n + 1)
  else if c = '\'' then
    let (content, n) ← quoted? c cs
    let [c] := content | none
    return (.character c, n + 1)
  else
    let signs := (c :: cs).takeWhile (· == '#')
    let (content, n) ← rawQuoted? signs (cs.drop signs.length)
    return (.text (String.ofList content), n + signs.length + 1)

/-- Whether a raw literal begins with `c`, followed by `cs`. -/
def beginsRaw (c : Char) (cs : List Char) : Bool :=
  c == '#' && (cs.dropWhile (· == '#')).head? == some '"'

/-- The text of a template up to its end or to the brace of a block, the number of characters up to
there, and whether it is the end.  A quote in the text is written twice. -/
def templatePart? : List Char → Option (List Char × Nat × Bool)
  | [] => none
  | c :: cs =>
    if c = '\x60' then
      match cs with
      | d :: ds =>
        if d = '\x60' then
          (templatePart? ds).map fun (content, n, ended) ↦ ('\x60' :: content, n + 2, ended)
        else some ([], 1, true)
      | [] => some ([], 1, true)
    else if c = '$' ∧ cs.head? = some '\x7b' then some ([], 1, false)
    else (templatePart? cs).map fun (content, n, ended) ↦ (c :: content, n + 1, ended)

/-- The token of a part of a template. -/
def ofTemplatePart (content : List Char) (ended : Bool) : Token :=
  if ended then .text (String.ofList content) else .templateText (String.ofList content)

/-- The number of open braces in each open block of a template, after another part of one. -/
def blocksAfterPart (ended : Bool) (blocks : List Nat) : List Nat :=
  if ended then blocks else 0 :: blocks

/-- The number of open braces in each open block of a template, after a token. -/
def blocksAfter (token : Token) : List Nat → List Nat
  | [] => []
  | n :: blocks =>
    match token with
    | .openBrace | .openRecord => (n + 1) :: blocks
    | .closeBrace => (n - 1) :: blocks
    | _ => n :: blocks

/-- The token in front of a text outside of templates, with its length. -/
def read? (c : Char) (cs : List Char) : Option (Token × Nat) :=
  if Text.isIdentifierStart c then
    let tail := cs.takeWhile Text.isIdentifierChar
    some (.word (String.ofList (c :: tail)), tail.length + 1)
  else if Decimal.isDigit c then some (numeral (c :: cs))
  else if c = '"' ∨ c = '\'' ∨ beginsRaw c cs then literal? c cs
  else symbol? (c :: cs)

/-- The tokens of a text after passing over its first `skip` characters, which belong to a token
read already; none, if a part of it belongs to no token. -/
def readFrom? : (skip : Nat) → (blocks : List Nat) → List Char → Option (List Token)
  | _, _, [] => some []
  | skip + 1, blocks, _ :: cs => readFrom? skip blocks cs
  | 0, blocks, c :: cs =>
    if Text.isBlank c then readFrom? 0 blocks cs
    else if c = '\x60' then do
      let (content, n, ended) ← templatePart? cs
      let tokens ← readFrom? n (blocksAfterPart ended blocks) cs
      return ofTemplatePart content ended :: tokens
    else if c = '\x7d' ∧ blocks.head? = some 1 then do
      let (content, n, ended) ← templatePart? cs
      let tokens ← readFrom? n (blocksAfterPart ended (blocks.drop 1)) cs
      return .closeBrace :: ofTemplatePart content ended :: tokens
    else do
      let (token, n) ← read? c cs
      let tokens ← readFrom? (n - 1) (blocksAfter token blocks) cs
      return token :: tokens

/-- The tokens of a text; none, if a part of it belongs to no token. -/
def ofText? (text : String) : Option (List Token) := readFrom? 0 [] text.toList

/-- The operator that a token is between operands. -/
def operator? : Token → Option Operator
  | .operator op => some op
  | .sign minus => some (if minus then .subtract else .add)
  | .word name => if name = "in" then some .within else none
  | _ => none

end Token

end FormulaQuiz.Formula
