import FormulaQuiz.Decimal.Notation
import FormulaQuiz.Formula.Value

/-!
# The text of a value

What a formula raises is shown to its author.  A text stands for itself; inside of lists and records
texts and characters are quoted.
-/

namespace FormulaQuiz.Formula

/-- A float that stands alone has a point or an exponent; the exponent stands only beyond thirteen
digits before or after the point. -/
def floatText (x : Float) : List Char :=
  let isPositional := 9.9999998245167e-14 ≤ x.abs && x.abs ≤ 9999999827968
  if x == 0 then "0.0".toList
  else (⟨.upward, isPositional, fun _ ↦ isPositional, false⟩ : Decimal.Layout).chars x

/-- A float in a list or record has a point or an exponent, which stands from `10^16` upward and
below `10^-4`. -/
def nestedLayout : Decimal.Layout := ⟨.upward, true, fun e ↦ -4 ≤ e && e < 16, false⟩

/-- A character between quotes, which are escaped in it. -/
def escaped (quote c : Char) : List Char :=
  if c = quote ∨ c = '\\' then ['\\', c] else [c]

/-- A text between quotes. -/
def quotedText (content : String) : List Char :=
  '"' :: content.toList.flatMap (escaped '"') ++ ['"']

/-- A function value. -/
def Callable.chars : Callable → List Char
  | .named name => "Fn(".toList ++ name.toList ++ [')']
  | .closure _ _ => "Fn(anon$)".toList

namespace Value

mutual

/-- The text of a value in a list or record. -/
def nestedChars : Value → List Char
  | unit => "()".toList
  | float x => nestedLayout.chars x
  | integer n => (integerText n).toList
  | truth b => (toString b).toList
  | text content => quotedText content
  | character c => '\'' :: escaped '\'' c ++ ['\'']
  | list items => '[' :: itemChars items ++ [']']
  | record entries => "#\x7b".toList ++ entriesChars entries ++ ['\x7d']
  | function f _ => f.chars

/-- The texts of some values, with commas. -/
def itemChars : List Value → List Char
  | [] => []
  | [v] => v.nestedChars
  | v :: vs => v.nestedChars ++ ", ".toList ++ itemChars vs

/-- The texts of some entries, with commas. -/
def entriesChars : List (String × Value) → List Char
  | [] => []
  | [entry] => entryChars entry
  | entry :: entries => entryChars entry ++ ", ".toList ++ entriesChars entries

/-- The text of an entry. -/
def entryChars : String × Value → List Char
  | (name, v) => quotedText name ++ ": ".toList ++ v.nestedChars

end

/-- The text of a value that stands alone. -/
def display : Value → String
  | unit => ""
  | float x => String.ofList (floatText x)
  | text content => content
  | character c => String.singleton c
  | v => String.ofList v.nestedChars

end Value

end FormulaQuiz.Formula
