import FormulaQuiz.Formula.Vocabulary
import FormulaQuiz.Question.Fault
import FormulaQuiz.Random.Source
import FormulaQuiz.Text.Occurrence
import FormulaQuiz.Text.Symbol

/-!
# Aliases

An author's names may be anything, so formulas are evaluated with an alias in place of each name: a
random word of letters and digits.  No alias stands in another alias or in a name, and none is a
word that has a meaning in formulas; so aliases and names are never taken for one another.
-/

namespace FormulaQuiz

/-- A random action that may find a fault. -/
abbrev Trial (σ : Type) := ExceptT Fault (Random.Draw σ)

/-- A result that draws nothing. -/
def Trial.ofExcept {σ α : Type} (result : Except Fault α) : Trial σ α := ExceptT.mk (pure result)

/-- Words with a meaning in formulas, here or elsewhere, that are not used as aliases. -/
def reservedWords : List String :=
  ["mod", "to", "in", "and", "xor", "or", "not", "end", "true", "false", "let", "const", "if",
    "else", "switch", "do", "while", "until", "loop", "for", "continue", "break", "return",
    "throw", "try", "catch", "import", "export", "as", "global", "private", "fn", "this", "is",
    "call", "curry", "print", "debug", "eval", "var", "static", "shared", "with", "goto", "exit",
    "match", "case", "public", "protected", "new", "use", "module", "package", "super", "spawn",
    "thread", "go", "sync", "async", "await", "yield", "default", "void", "null", "nil"]

/-- How aliases are made. -/
structure AliasPolicy where
  /-- The number of characters of an alias; zero counts as one. -/
  length : Nat
  /-- How many words are tried for a name. -/
  attempts : Nat
deriving DecidableEq, Repr

/-- Names with their aliases, in the order in which they were given. -/
structure AliasTable where
  policy : AliasPolicy
  entries : List (String × String)
deriving DecidableEq, Repr

/-- The characters that may begin an alias. -/
def aliasHeads : List Char := "abcdefghijklmnopqrstuvwxyz".toList

/-- The characters that may follow in an alias. -/
def aliasTails : List Char := "abcdefghijklmnopqrstuvwxyz0123456789".toList

/-- Whether a text stands in another. -/
def standsIn (part whole : String) : Bool := Text.occursIn part.toList whole.toList

/-- Whether a word may be an alias beside others, when names are to be told from it. -/
def isFree (names aliases : List String) (candidate : String) : Bool :=
  !(reservedWords.contains candidate || Formula.functionNames.contains candidate ||
      Formula.constantNames.contains candidate) &&
    !(aliases.any fun a ↦ standsIn candidate a || standsIn a candidate) &&
    !(names.any fun name ↦ standsIn candidate name)

section Draws

variable {σ : Type} [Random.WordSource σ]

/-- Draws one of some characters. -/
def drawChar (chars : List Char) : Random.Draw σ Char := do
  return chars.getD (← Random.index .double chars.length) 'a'

/-- Draws a number of characters. -/
def drawChars (chars : List Char) : (count : Nat) → Random.Draw σ (List Char)
  | 0 => return []
  | count + 1 => do
    let c ← drawChar chars
    return c :: (← drawChars chars count)

/-- Draws a word of at least one character. -/
def drawWord (length : Nat) : Random.Draw σ String := do
  let head ← drawChar aliasHeads
  return String.ofList (head :: (← drawChars aliasTails (length - 1)))

/-- Draws words until one is free, at most a number of times. -/
def drawFree (length : Nat) (names aliases : List String) :
    (attempts : Nat) → Random.Draw σ (Option String)
  | 0 => return none
  | attempts + 1 => do
    let candidate ← drawWord length
    if isFree names aliases candidate then return some candidate
    else drawFree length names aliases attempts

end Draws

namespace AliasTable

/-- No name has an alias. -/
def empty (policy : AliasPolicy) : AliasTable := ⟨policy, []⟩

/-- The alias of a name. -/
def alias? (t : AliasTable) (name : String) : Option String := t.entries.lookup name

/-- The name of an alias. -/
def name? (t : AliasTable) (word : String) : Option String :=
  (t.entries.find? fun entry ↦ entry.2 == word).map (·.1)

/-- The names that have aliases. -/
def names (t : AliasTable) : List String := t.entries.map (·.1)

/-- The aliases of names. -/
def aliases (t : AliasTable) : List String := t.entries.map (·.2)

/-- How many names have aliases. -/
def size (t : AliasTable) : Nat := t.entries.length

variable {σ : Type} [Random.WordSource σ]

/-- Gives a name an alias that stands in none of `names`; the result is the alias and the table
with it. -/
def extend (t : AliasTable) (names : List String) (name : String) :
    Trial σ (String × AliasTable) := do
  let free : Random.Draw σ (Option String) :=
    drawFree t.policy.length names t.aliases t.policy.attempts
  match ← free with
  | some word => return (word, { t with entries := t.entries ++ [(name, word)] })
  | none => throw (.aliasesExhausted name t.policy.attempts)

/-- Gives a name without alias a new one, which stands in no name of the table; the result is the
alias and the table with it. -/
def assign (t : AliasTable) (name : String) : Trial σ (String × AliasTable) :=
  if (t.alias? name).isSome then throw (.alreadyAliased name)
  else t.extend (name :: t.names) name

/-- Gives each of some names that has none an alias, which stands in none of `names`. -/
def extendAll (t : AliasTable) (names : List String) : List String → Trial σ AliasTable
  | [] => return t
  | name :: rest => do
    if (t.alias? name).isSome then extendAll t names rest
    else extendAll (← t.extend names name).2 names rest

/-- A table with an alias for each of some names. -/
def ofNames (policy : AliasPolicy) (names : List String) : Trial σ AliasTable :=
  (empty policy).extendAll names names

/-- Whether an entry has its turn before another: that with more bytes in its name, and of equal
ones that with the lesser name. -/
def before (x y : String × String) : Bool :=
  if x.1.utf8ByteSize = y.1.utf8ByteSize then decide (x.1 ≤ y.1)
  else decide (y.1.utf8ByteSize < x.1.utf8ByteSize)

/-- A text with the aliases in place of the names, the longest names first. -/
def substitute (t : AliasTable) (source : String) : String :=
  (t.entries.mergeSort before).foldl (fun text (name, word) ↦ Text.replaceSymbol text name word)
    source

end AliasTable

end FormulaQuiz
