import FormulaQuiz.Text.Identifier

/-!
# The words of formulas

Which words name functions and constants, and which words the evaluation of formulas keeps to
itself.
-/

namespace FormulaQuiz.Formula

/-- The functions that an author may call. -/
def functionNames : List String :=
  ["sin", "cos", "tan", "asin", "acos", "atan", "sinh", "cosh", "tanh", "sqrt", "cbrt", "exp",
    "abs", "floor", "ceil", "round", "log", "ln", "log10", "log2", "pow"]

/-- The constants that an author may use. -/
def constantNames : List String := ["pi", "e"]

/-- Words that evaluation keeps to itself: those of its own forms, and others that stand nowhere. -/
def barredWords : List String :=
  ["let", "const", "if", "else", "switch", "do", "while", "until", "loop", "for", "continue",
    "break", "return", "throw", "try", "catch", "import", "export", "as", "private", "fn", "this",
    "is", "not", "var", "static", "shared", "with", "goto", "exit", "match", "case", "public",
    "protected", "new", "use", "module", "package", "super", "spawn", "thread", "go", "sync",
    "async", "await", "yield", "default", "void", "null", "nil"]

/-- Words that evaluation keeps to itself and that stand in a formula only as the name of a
function that is called. -/
def callableWords : List String :=
  ["print", "debug", "type_of", "eval", "Fn", "call", "curry", "is_def_var", "is_def_fn",
    "is_shared"]

/-- Words among `callableWords` that may also follow a point. -/
def methodWords : List String := ["type_of", "call", "curry", "is_shared"]

/-- The word operator, and the two truth values. -/
def valueWords : List String := ["in", "true", "false"]

/-- Whether a word has a letter after its leading underscores. -/
def hasLeadingLetter (word : String) : Bool :=
  (word.toList.dropWhile (· == '_')).head?.any Text.isLetter

/-- Whether a word is one that evaluation keeps to itself. -/
def isKept (word : String) : Bool :=
  barredWords.contains word || callableWords.contains word || valueWords.contains word

/-- Whether a word may name a variable. -/
def isName (word : String) : Bool := hasLeadingLetter word && !isKept word

/-- The symbols that may be the name of a function value. -/
def symbolNames : List String :=
  ["+", "-", "*", "/", "%", "**", "<<", ">>", "&", "|", "^", "~", "&&", "||", "==", "!=", "<",
    "<=", ">", ">=", "!", "??", "?", "=", "+=", "-=", "*=", "/=", "%=", "**=", "<<=", ">>=",
    "&=", "|=", "^=", "(", ")", "[", "]", "\x7b", "\x7d", ",", ".", ":", ";", "::", "=>", "?[",
    "?.", "..", "..=", "...", "#\x7b", "_", "()", "!in", "===", "!==", "->", "<-", ":=", ":;",
    "::<", "(*", "*)", "#", "#!", "@", "$", "++", "--", "<|", "|>", "!."]

/-- Whether a text may be the name of a function value. -/
def isFunctionName (name : String) : Bool :=
  isKept name || symbolNames.contains name ||
    hasLeadingLetter name && name.toList.all Text.isIdentifierChar

end FormulaQuiz.Formula
