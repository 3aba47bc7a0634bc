import FormulaQuiz.Decimal.Notation
import FormulaQuiz.Json.Quoted
import FormulaQuiz.Json.Value

/-!
# Printing documents

A document is printed without spaces, or over several lines with two spaces for each level.
-/

namespace FormulaQuiz.Json

/-- The string that denotes a text. -/
def text (s : String) : Json := .string (escape s)

/-- A text, or `null`. -/
def text? (s : Option String) : Json := s.elim .null text

/-- A natural number. -/
def nat (n : Nat) : Json := .number (Decimal.natText n)

/-- A float; one that is not finite is written as `null`. -/
def float (x : Float) : Json := if x.isFinite then .number (Decimal.document x) else .null

/-- An object with the given members. -/
def ofMembers (members : List (String × Json)) : Json :=
  .object (members.map fun (name, json) ↦ (escape name, json))

/-- A literal between quotes. -/
def quote (literal : String) : String := "\"" ++ literal ++ "\""

mutual

/-- A document on one line, without spaces. -/
def compact : Json → String
  | .null => "null"
  | .bool b => if b then "true" else "false"
  | .number literal => literal
  | .string literal => quote literal
  | .array items => "[" ++ ",".intercalate (compactItems items) ++ "]"
  | .object members => "\x7b" ++ ",".intercalate (compactMembers members) ++ "\x7d"

/-- Items on one line each for itself. -/
def compactItems : List Json → List String
  | [] => []
  | item :: items => item.compact :: compactItems items

/-- Members on one line each for itself. -/
def compactMembers : List (String × Json) → List String
  | [] => []
  | (name, item) :: members => (quote name ++ ":" ++ item.compact) :: compactMembers members

end

/-- The start of a line at a level. -/
def indentation (level : Nat) : String := "\n" ++ String.ofList (List.replicate (2 * level) ' ')

/-- Parts between brackets, each on a line of its own one level deeper. -/
def block (level : Nat) (opening closing : String) (parts : List String) : String :=
  if parts.isEmpty then opening ++ closing
  else
    let start := indentation (level + 1)
    opening ++ start ++ ("," ++ start).intercalate parts ++ indentation level ++ closing

mutual

/-- A document over several lines, the first of which stands at `level`. -/
def prettyAt (level : Nat) : Json → String
  | .array items => block level "[" "]" (prettyItems (level + 1) items)
  | .object members => block level "\x7b" "\x7d" (prettyMembers (level + 1) members)
  | json => json.compact

/-- Items over several lines. -/
def prettyItems (level : Nat) : List Json → List String
  | [] => []
  | item :: items => item.prettyAt level :: prettyItems level items

/-- Members over several lines. -/
def prettyMembers (level : Nat) : List (String × Json) → List String
  | [] => []
  | (name, item) :: members =>
    (quote name ++ ": " ++ item.prettyAt level) :: prettyMembers level members

end

/-- A document over several lines, with two spaces for each level. -/
def pretty (json : Json) : String := json.prettyAt 0

end FormulaQuiz.Json
