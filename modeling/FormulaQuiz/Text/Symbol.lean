import FormulaQuiz.Text.Identifier

/-!
# Replacing a symbol

A symbol is replaced where it is not glued to an identifier character of the text, on a side where
the symbol itself ends in one.  So `R_1` is left alone inside `R_12`.
-/

namespace FormulaQuiz.Text

/-- Whether a character beside an end of a symbol keeps the symbol from being one there. -/
def glued (inner outer : Option Char) : Bool :=
  inner.any isIdentifierChar && outer.any isIdentifierChar

/-- Whether a symbol stands at the front of `cs`, with `before` as the character to its left, glued
on neither side. -/
def standsAt (symbol : List Char) (before : Option Char) (cs : List Char) : Bool :=
  symbol.isPrefixOf cs && !glued symbol.head? before &&
    !glued symbol.getLast? (cs.drop symbol.length).head?

/-- Copies a text with a symbol replaced from left to right, after passing over the first `skip`
characters, which belong to an occurrence replaced already. -/
def replaceFrom (symbol replacement : List Char) :
    (skip : Nat) → (before : Option Char) → List Char → List Char
  | _, _, [] => []
  | skip + 1, _, c :: cs => replaceFrom symbol replacement skip (some c) cs
  | 0, before, c :: cs =>
    if standsAt symbol before (c :: cs) then
      replacement ++ replaceFrom symbol replacement (symbol.length - 1) (some c) cs
    else c :: replaceFrom symbol replacement 0 (some c) cs

/-- A text with every occurrence of a symbol that is not glued replaced; the empty symbol occurs
nowhere. -/
def replaceSymbol (source symbol replacement : String) : String :=
  if symbol.isEmpty then source
  else String.ofList (replaceFrom symbol.toList replacement.toList 0 none source.toList)

end FormulaQuiz.Text
