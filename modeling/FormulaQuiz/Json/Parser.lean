import FormulaQuiz.Decimal.Digits
import FormulaQuiz.Json.Quoted
import FormulaQuiz.Json.Value

/-!
# Reading documents

A document is read from the front of a text; each reader answers the rest of the text.  The nesting
that is followed is bounded by the length of the text, which no document exceeds.
-/

namespace FormulaQuiz.Json

/-- Whether a character may separate tokens. -/
def isSpace (c : Char) : Bool := c == ' ' || c == '\n' || c == '\t' || c == '\r'

/-- A text without the separators in front. -/
def skipSpace (cs : List Char) : List Char := cs.dropWhile isSpace

/-- Splits at least one digit off the front of a text. -/
def splitDigits1? (cs : List Char) : Option (List Char × List Char) :=
  let ds := cs.takeWhile Decimal.isDigit
  if ds.isEmpty then none else some (ds, cs.dropWhile Decimal.isDigit)

/-- Splits the integer part of a number off the front of a text; no digit follows a leading zero. -/
def splitWhole? (cs : List Char) : Option (List Char × List Char) := do
  let (ds, rest) ← splitDigits1? cs
  guard (ds.head? ≠ some '0' ∨ ds.length = 1)
  some (ds, rest)

/-- Splits the fraction of a number off the front of a text, if it has one. -/
def splitFraction? : List Char → Option (List Char × List Char)
  | '.' :: cs => do
    let (ds, rest) ← splitDigits1? cs
    some ('.' :: ds, rest)
  | cs => some ([], cs)

/-- Splits the exponent of a number off the front of a text, if it has one. -/
def splitExponent? : List Char → Option (List Char × List Char)
  | c :: cs =>
    if c = 'e' ∨ c = 'E' then
      match cs with
      | s :: afterSign =>
        if s = '+' ∨ s = '-' then do
          let (ds, rest) ← splitDigits1? afterSign
          some (c :: s :: ds, rest)
        else do
          let (ds, rest) ← splitDigits1? cs
          some (c :: ds, rest)
      | [] => none
    else some ([], c :: cs)
  | [] => some ([], [])

/-- Splits a number without sign off the front of a text. -/
def splitMagnitude? (cs : List Char) : Option (List Char × List Char) := do
  let (whole, cs) ← splitWhole? cs
  let (fraction, cs) ← splitFraction? cs
  let (exponent, cs) ← splitExponent? cs
  some (whole ++ fraction ++ exponent, cs)

/-- Splits a number off the front of a text. -/
def splitNumber? : List Char → Option (List Char × List Char)
  | '-' :: cs => do
    let (magnitude, rest) ← splitMagnitude? cs
    some ('-' :: magnitude, rest)
  | cs => splitMagnitude? cs

/-- The rest of a text that begins with a word. -/
def afterWord? (word : String) (cs : List Char) : Option (List Char) :=
  if word.toList.isPrefixOf cs then some (cs.drop word.length) else none

mutual

/-- Reads a document from the front of a text. -/
def read? : (fuel : Nat) → List Char → Option (Json × List Char)
  | 0, _ => none
  | fuel + 1, cs =>
    match skipSpace cs with
    | '"' :: cs => do
      let (literal, rest) ← splitString? cs
      some (.string (String.ofList literal), rest)
    | '[' :: cs =>
      match skipSpace cs with
      | ']' :: rest => some (.array [], rest)
      | _ => do
        let (items, rest) ← readItems? fuel cs
        some (.array items, rest)
    | '\x7b' :: cs =>
      match skipSpace cs with
      | '\x7d' :: rest => some (.object [], rest)
      | _ => do
        let (members, rest) ← readMembers? fuel cs
        some (.object members, rest)
    | 't' :: cs => (afterWord? "rue" cs).map (Json.bool true, ·)
    | 'f' :: cs => (afterWord? "alse" cs).map (Json.bool false, ·)
    | 'n' :: cs => (afterWord? "ull" cs).map (Json.null, ·)
    | cs => do
      let (literal, rest) ← splitNumber? cs
      some (.number (String.ofList literal), rest)

/-- Reads the items of an array up to its closing bracket. -/
def readItems? : (fuel : Nat) → List Char → Option (List Json × List Char)
  | 0, _ => none
  | fuel + 1, cs => do
    let (item, cs) ← read? fuel cs
    match skipSpace cs with
    | ',' :: cs => do
      let (items, rest) ← readItems? fuel cs
      some (item :: items, rest)
    | ']' :: rest => some ([item], rest)
    | _ => none

/-- Reads the members of an object up to its closing brace. -/
def readMembers? : (fuel : Nat) → List Char → Option (List (String × Json) × List Char)
  | 0, _ => none
  | fuel + 1, cs =>
    match skipSpace cs with
    | '"' :: cs => do
      let (name, cs) ← splitString? cs
      match skipSpace cs with
      | ':' :: cs => do
        let (item, cs) ← read? fuel cs
        let member := (String.ofList name, item)
        match skipSpace cs with
        | ',' :: cs => do
          let (members, rest) ← readMembers? fuel cs
          some (member :: members, rest)
        | '\x7d' :: rest => some ([member], rest)
        | _ => none
      | _ => none
    | _ => none

end

/-- The document that a text is, separators around it aside. -/
def parse? (source : String) : Option Json := do
  let cs := source.toList
  let (json, rest) ← read? (cs.length + 1) cs
  guard (skipSpace rest).isEmpty
  some json

end FormulaQuiz.Json
