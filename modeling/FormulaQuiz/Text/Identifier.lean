/-!
# Identifier characters

Letters and digits are those of ASCII: names in formulas use no others, and a name of other
characters has no identifier character at its ends.
-/

namespace FormulaQuiz.Text

/-- Whether a character is an ASCII letter. -/
def isLetter (c : Char) : Bool := 'a' ≤ c && c ≤ 'z' || 'A' ≤ c && c ≤ 'Z'

/-- Whether a character may begin an identifier. -/
def isIdentifierStart (c : Char) : Bool := isLetter c || c == '_'

/-- Whether a character may stand in an identifier. -/
def isIdentifierChar (c : Char) : Bool := isIdentifierStart c || '0' ≤ c && c ≤ '9'

end FormulaQuiz.Text
