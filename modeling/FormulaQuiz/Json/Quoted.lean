/-!
# String literals

A string literal spells a text with escapes.  Every text has a spelling; a spelling that names half
of a surrogate pair denotes no text.
-/

namespace FormulaQuiz.Json

/-- The value of a hexadecimal digit. -/
def hexValue? (c : Char) : Option Nat :=
  if '0' ≤ c ∧ c ≤ '9' then some (c.toNat - '0'.toNat)
  else if 'a' ≤ c ∧ c ≤ 'f' then some (c.toNat - 'a'.toNat + 10)
  else if 'A' ≤ c ∧ c ≤ 'F' then some (c.toNat - 'A'.toNat + 10)
  else none

/-- The number that four hexadecimal digits denote. -/
def hexWord? (a b c d : Char) : Option Nat := do
  some (4096 * (← hexValue? a) + 256 * (← hexValue? b) + 16 * (← hexValue? c) + (← hexValue? d))

/-- The character that a letter after a backslash stands for. -/
def escaped? : Char → Option Char
  | '"' => some '"'
  | '\\' => some '\\'
  | '/' => some '/'
  | 'b' => some '\x08'
  | 'f' => some '\x0c'
  | 'n' => some '\n'
  | 'r' => some '\r'
  | 't' => some '\t'
  | _ => none

/-- Splits a string literal and its closing quote off the front of a text; none if the literal has
a control character, an unknown escape or no end. -/
def splitString? : List Char → Option (List Char × List Char)
  | '"' :: cs => some ([], cs)
  | '\\' :: 'u' :: a :: b :: c :: d :: cs => do
    let _ ← hexWord? a b c d
    let (literal, rest) ← splitString? cs
    some ('\\' :: 'u' :: a :: b :: c :: d :: literal, rest)
  | '\\' :: c :: cs => do
    let _ ← escaped? c
    let (literal, rest) ← splitString? cs
    some ('\\' :: c :: literal, rest)
  | c :: cs => do
    guard ('\x20' ≤ c ∧ c ≠ '\\')
    let (literal, rest) ← splitString? cs
    some (c :: literal, rest)
  | [] => none

/-- Whether a word is the first half of a surrogate pair. -/
def isLeading (n : Nat) : Bool := 0xD800 ≤ n && n < 0xDC00

/-- Whether a word is the second half of a surrogate pair. -/
def isTrailing (n : Nat) : Bool := 0xDC00 ≤ n && n < 0xE000

/-- The text that a string literal denotes; `leading` is the first half of a pair just read. -/
def unescapeFrom? (leading : Option Nat) : List Char → Option (List Char)
  | [] => if leading.isSome then none else some []
  | '\\' :: 'u' :: a :: b :: c :: d :: cs => do
    let n ← hexWord? a b c d
    match leading with
    | some m =>
      if isTrailing n then
        let text ← unescapeFrom? none cs
        some (Char.ofNat (0x10000 + 0x400 * (m - 0xD800) + (n - 0xDC00)) :: text)
      else none
    | none =>
      if isLeading n then unescapeFrom? (some n) cs
      else if isTrailing n then none
      else do
        let text ← unescapeFrom? none cs
        some (Char.ofNat n :: text)
  | '\\' :: c :: cs => do
    guard leading.isNone
    let text ← unescapeFrom? none cs
    some ((← escaped? c) :: text)
  | c :: cs => do
    guard leading.isNone
    let text ← unescapeFrom? none cs
    some (c :: text)

/-- The text that a string literal denotes. -/
def unescape? (literal : String) : Option String :=
  (unescapeFrom? none literal.toList).map String.ofList

/-- The digits of a number below 256 in base sixteen. -/
def hexByte (n : Nat) : List Char :=
  [Nat.digitChar (n / 16 % 16), Nat.digitChar (n % 16)]

/-- The spelling of a character in a string literal: quotes, backslashes and control characters are
escaped, and nothing else. -/
def escapeChar : Char → List Char
  | '"' => ['\\', '"']
  | '\\' => ['\\', '\\']
  | '\x08' => ['\\', 'b']
  | '\x0c' => ['\\', 'f']
  | '\n' => ['\\', 'n']
  | '\r' => ['\\', 'r']
  | '\t' => ['\\', 't']
  | c => if c < '\x20' then '\\' :: 'u' :: '0' :: '0' :: hexByte c.toNat else [c]

/-- The literal that denotes a text. -/
def escape (text : String) : String := String.ofList (text.toList.flatMap escapeChar)

end FormulaQuiz.Json
