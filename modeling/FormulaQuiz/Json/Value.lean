/-!
# JSON documents

A document keeps its literals as they are written: a number is its numeral, a string is the text
between its quotes, escapes included.  What a literal denotes is decided where it is used, so a
literal that denotes nothing does no harm where it is not used.
-/

namespace FormulaQuiz

/-- A JSON document. -/
inductive Json where
  | null
  | bool (b : Bool)
  /-- A number as written. -/
  | number (literal : String)
  /-- A string as written between its quotes. -/
  | string (literal : String)
  | array (items : List Json)
  /-- The members in order, their names as written between quotes. -/
  | object (members : List (String × Json))
deriving Repr, Inhabited

namespace Json

mutual

/-- How deep arrays and objects are nested. -/
def depth : Json → Nat
  | .array items => depthItems items + 1
  | .object members => depthMembers members + 1
  | _ => 0

/-- The depth of the deepest of some items. -/
def depthItems : List Json → Nat
  | [] => 0
  | item :: items => max item.depth (depthItems items)

/-- The depth of the deepest of some members. -/
def depthMembers : List (String × Json) → Nat
  | [] => 0
  | (_, item) :: members => max item.depth (depthMembers members)

end

mutual

/-- Whether a test of string literals and one of number literals hold of all literals. -/
def allLiterals (strings numbers : String → Bool) : Json → Bool
  | .number literal => numbers literal
  | .string literal => strings literal
  | .array items => allItems strings numbers items
  | .object members => allMembers strings numbers members
  | _ => true

/-- Whether the tests hold of all literals of some items. -/
def allItems (strings numbers : String → Bool) : List Json → Bool
  | [] => true
  | item :: items => item.allLiterals strings numbers && allItems strings numbers items

/-- Whether the tests hold of all literals of some members, their names included. -/
def allMembers (strings numbers : String → Bool) : List (String × Json) → Bool
  | [] => true
  | (name, item) :: members =>
    strings name && item.allLiterals strings numbers && allMembers strings numbers members

end

mutual

/-- The document with another spelling of each number. -/
def mapNumbers (f : String → String) : Json → Json
  | .number literal => .number (f literal)
  | .array items => .array (mapItems f items)
  | .object members => .object (mapMembers f members)
  | json => json

/-- Items with another spelling of each number. -/
def mapItems (f : String → String) : List Json → List Json
  | [] => []
  | item :: items => item.mapNumbers f :: mapItems f items

/-- Members with another spelling of each number. -/
def mapMembers (f : String → String) : List (String × Json) → List (String × Json)
  | [] => []
  | (name, item) :: members => (name, item.mapNumbers f) :: mapMembers f members

end

end Json

end FormulaQuiz
