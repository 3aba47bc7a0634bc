/-!
# Decimal digits

Digits are characters `0` to `9`, so that a numeral and its text are one thing.
-/

namespace FormulaQuiz.Decimal

/-- Whether a character is one of the ten decimal digits. -/
def isDigit (c : Char) : Bool := '0' ≤ c && c ≤ '9'

/-- The number that a digit stands for. -/
def digitValue (c : Char) : Nat := c.toNat - '0'.toNat

/-- The digits of a natural number, without a leading zero except for zero itself. -/
def digits (n : Nat) : List Char := Nat.toDigits 10 n

/-- A natural number in a text. -/
def natText (n : Nat) : String := String.ofList (digits n)

/-- The natural number that a list of digits denotes. -/
def value (ds : List Char) : Nat := ds.foldl (fun n d ↦ 10 * n + digitValue d) 0

/-- `n` zeros. -/
def zeros (n : Nat) : List Char := List.replicate n '0'

/-- The digits of `n`, filled with leading zeros to at least `width` of them. -/
def paddedDigits (width n : Nat) : List Char :=
  let ds := digits n
  zeros (width - ds.length) ++ ds

/-- What is left of a text when its trailing characters `c` are dropped. -/
def dropTrailing (c : Char) (cs : List Char) : List Char :=
  (cs.reverse.dropWhile (· == c)).reverse

end FormulaQuiz.Decimal
