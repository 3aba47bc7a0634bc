import FormulaQuiz.Json.Number
import FormulaQuiz.Json.Parser

/-!
# Reading records

A record is written as an object, whose unknown members are passed over and whose known members
occur at most once, or as an array of its fields in order, which may end early.  Each reader of a
field answers nothing for a document of another kind.
-/

namespace FormulaQuiz.Json

/-- The text of a string. -/
def asText? : Json → Option String
  | .string literal => unescape? literal
  | _ => none

/-- A truth value. -/
def asBool? : Json → Option Bool
  | .bool b => some b
  | _ => none

/-- A number as a float. -/
def asFloat? : Json → Option Float
  | .number literal => (Number.ofLiteral literal).toFloat?
  | _ => none

/-- A natural number up to a limit, not written as a decimal fraction. -/
def asNat? (limit : Nat) : Json → Option Nat
  | .number literal => (Number.ofLiteral literal).toNat? limit
  | _ => none

/-- A byte. -/
def asByte? (json : Json) : Option UInt8 := (json.asNat? 255).map UInt8.ofNat

/-- An array, each of its items read. -/
def asList? {α : Type} (read : Json → Option α) : Json → Option (List α)
  | .array items => items.mapM read
  | _ => none

/-- `null`, or a value. -/
def asOptional? {α : Type} (read : Json → Option α) : Json → Option (Option α)
  | .null => some none
  | json => (read json).map some

/-- The fields of a record that are present, by position. -/
abbrev Fields := List (Option Json)

/-- The members with a name among `names`; none if the name of a member denotes no text. -/
def membersNamed? (names : List String) : List (String × Json) → Option (List Json)
  | [] => some []
  | (literal, json) :: members => do
    let name ← unescape? literal
    let rest ← membersNamed? names members
    some (if names.contains name then json :: rest else rest)

/-- The fields of a record, each known by one or more names. -/
def fields? (names : List (List String)) : Json → Option Fields
  | .object members => names.mapM fun aliases ↦ do
    match ← membersNamed? aliases members with
    | [] => some none
    | [json] => some (some json)
    | _ => none
  | .array items =>
    if items.length ≤ names.length then
      some ((items.map some) ++ List.replicate (names.length - items.length) none)
    else none
  | _ => none

namespace Fields

/-- The field at a position, if it is present. -/
def at? (fields : Fields) (i : Nat) : Option Json := fields[i]?.join

/-- A field that must be present. -/
def required? {α : Type} (fields : Fields) (i : Nat) (read : Json → Option α) : Option α :=
  fields.at? i >>= read

/-- A field with a value for its absence. -/
def withDefault? {α : Type} (fields : Fields) (i : Nat) (default : α) (read : Json → Option α) :
    Option α :=
  match fields.at? i with
  | none => some default
  | some json => read json

/-- A field that may be absent or `null`. -/
def optional? {α : Type} (fields : Fields) (i : Nat) (read : Json → Option α) :
    Option (Option α) :=
  fields.withDefault? i none (asOptional? read)

end Fields

/-- How deep a document may be nested that is kept before it is read. -/
def depthLimit : Nat := 127

/-- Whether all of a document can be kept: its strings denote texts, its numbers are no greater than
every float, and it is not nested too deep. -/
def isKept (json : Json) : Bool :=
  json.allLiterals (fun s ↦ (unescape? s).isSome) (fun n ↦ (Number.ofLiteral n).toFloat?.isSome) &&
    decide (json.depth ≤ depthLimit)

/-- The tag and the rest of a record whose kind is told by a member, or by the first item. -/
def tagged? (tag : String) (json : Json) : Option (String × Json) :=
  if json.isKept then
    match json with
    | .object members => do
      match ← membersNamed? [tag] members with
      | [kind] => some (← kind.asText?, .object (members.filter fun m ↦ unescape? m.1 ≠ some tag))
      | _ => none
    | .array (kind :: items) => do some (← kind.asText?, .array items)
    | _ => none
  else none

end FormulaQuiz.Json
