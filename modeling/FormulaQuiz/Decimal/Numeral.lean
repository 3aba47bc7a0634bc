import FormulaQuiz.Decimal.Digits

/-!
# Reading decimal numerals

A numeral is split from the front of a text by longest match and denotes the float nearest to its
exact decimal value.
-/

namespace FormulaQuiz.Decimal

/-- Splits the digits off the front of a text. -/
def splitDigits (cs : List Char) : List Char × List Char :=
  (cs.takeWhile isDigit, cs.dropWhile isDigit)

/-- Splits a point and the digits after it off the front of a text, if a point stands there. -/
def splitFraction : List Char → List Char × List Char
  | '.' :: cs => let (ds, rest) := splitDigits cs; ('.' :: ds, rest)
  | cs => ([], cs)

/-- Splits a plus or minus sign off the front of a text, if one stands there. -/
def splitSign : List Char → List Char × List Char
  | c :: cs => if c = '+' ∨ c = '-' then ([c], cs) else ([], c :: cs)
  | [] => ([], [])

/-- Splits an exponent off the front of a text: the letter, an optional sign and at least one digit;
nothing, if a digit is missing. -/
def splitExponent : List Char → List Char × List Char
  | c :: cs =>
    if c = 'e' ∨ c = 'E' then
      let (sign, afterSign) := splitSign cs
      let (ds, rest) := splitDigits afterSign
      if ds.isEmpty then ([], c :: cs) else (c :: sign ++ ds, rest)
    else ([], c :: cs)
  | [] => ([], [])

/-- Splits the longest numeral off the front of a text: digits with an optional point among or
around them, and an optional exponent. -/
def splitNumeral (cs : List Char) : List Char × List Char :=
  let (whole, afterWhole) := splitDigits cs
  let (fraction, afterFraction) := splitFraction afterWhole
  let (exponent, rest) := splitExponent afterFraction
  (whole ++ fraction ++ exponent, rest)

/-- The float nearest to `coefficient · 10^exponent`. -/
def nearestFloat (coefficient : Nat) (exponent : Int) : Float :=
  Float.ofScientific coefficient (decide (exponent < 0)) exponent.natAbs

/-- The value of the exponent part of a numeral. -/
def exponentValue : List Char → Int
  | [] => 0
  | _ :: cs =>
    let (sign, ds) := splitSign cs
    if sign = ['-'] then -(value ds : Int) else value ds

/-- The float that an unsigned numeral denotes: the one nearest to its decimal value. -/
def numeralValue (cs : List Char) : Float :=
  let (whole, afterWhole) := splitDigits cs
  let (fraction, afterFraction) := splitFraction afterWhole
  let places := fraction.drop 1
  nearestFloat (value (whole ++ places)) (exponentValue afterFraction - places.length)

/-- The float that a text names: an optional sign, then a numeral with at least one digit outside
its exponent, or a word for an infinity or the undefined value in any case. -/
def float? (text : String) : Option Float :=
  let (sign, body) := splitSign text.toList
  let magnitude? : Option Float :=
    let word := String.ofList (body.map Char.toLower)
    if word = "inf" ∨ word = "infinity" then some (1.0 / 0.0)
    else if word = "nan" then some (0.0 / 0.0)
    else
      let (numeral, rest) := splitNumeral body
      if rest.isEmpty ∧ (numeral.headD 'e' |> fun c ↦ isDigit c ∨ c = '.' ∧
          (numeral.drop 1).head?.any isDigit) then some (numeralValue numeral)
      else none
  magnitude?.map fun x ↦ if sign = ['-'] then -x else x

end FormulaQuiz.Decimal
