/-!
# Plain formula text

Authors may write a formula with typesetting commands: brackets of all kinds group, and a backslash
only marks a command.
-/

namespace FormulaQuiz.Formula

/-- What a character of typeset text is in plain text; a backslash is nothing. -/
def plainChar? (c : Char) : Option Char :=
  if c = '[' ∨ c = '\x7b' then some '('
  else if c = ']' ∨ c = '\x7d' then some ')'
  else if c = '\\' then none
  else some c

/-- Typeset text with all brackets round and without backslashes. -/
def plainText (source : String) : String := String.ofList (source.toList.filterMap plainChar?)

end FormulaQuiz.Formula
