import FormulaQuiz.Decimal.Shortest

/-!
# How a float is written

The digits of a float are chosen in `Decimal.Shortest`; a `Notation` says how they are laid out.
The plain one of messages and the one of JSON documents are found here.
-/

namespace FormulaQuiz.Decimal

/-- The decisions of a way to write floats. -/
structure Layout where
  /-- Which of two equally near decimals is written. -/
  tie : Tie
  /-- Whether an integer ends in `.0`. -/
  pointZero : Bool
  /-- Whether a number whose first digit has this decimal exponent is written without exponent. -/
  positional : Int → Bool
  /-- Whether a positive exponent has a sign. -/
  plusSign : Bool

/-- Messages show all digits and no exponent. -/
def Layout.plain : Layout := ⟨.upward, false, fun _ ↦ true, false⟩

/-- Documents mark a float by a point or an exponent; the exponent, always with a sign, stands from
`10^16` upward and below `10^-5`. -/
def Layout.document : Layout := ⟨.toEven, true, fun e ↦ -5 ≤ e && e < 16, true⟩

/-- A number without exponent. -/
def Layout.positionalText (l : Layout) (s : Scaled) : List Char :=
  if s.point ≤ 0 then "0.".toList ++ zeros (-s.point).toNat ++ s.digits
  else if s.digits.length ≤ s.point then
    s.digits ++ zeros (s.point - s.digits.length).toNat ++
      if l.pointZero then ".0".toList else []
  else s.digits.take s.point.toNat ++ '.' :: s.digits.drop s.point.toNat

/-- A number with one digit before the point and an exponent. -/
def Layout.exponentText (l : Layout) (s : Scaled) : List Char :=
  let exponent := s.point - 1
  let mantissa := match s.digits with
    | [] => ['0']
    | [d] => [d]
    | d :: ds => d :: '.' :: ds
  let sign := if exponent < 0 then ['-'] else if l.plusSign then ['+'] else []
  mantissa ++ 'e' :: sign ++ digits exponent.natAbs

/-- A positive number. -/
def Layout.magnitudeText (l : Layout) (s : Scaled) : List Char :=
  if l.positional (s.point - 1) then l.positionalText s else l.exponentText s

/-- The text of a float: `NaN`, `inf`, or the shortest decimal that reads back. -/
def Layout.chars (l : Layout) (x : Float) : List Char :=
  match Dyadic.ofFloat? x with
  | none => if x.isNaN then "NaN".toList else if x < 0 then "-inf".toList else "inf".toList
  | some d =>
    let sign := if d.negative then ['-'] else []
    if d.significand = 0 then sign ++ '0' :: if l.pointZero then ".0".toList else []
    else sign ++ l.magnitudeText (shortest l.tie d.significand d.exponent)

/-- The text of a float in messages. -/
def plain (x : Float) : String := String.ofList (Layout.plain.chars x)

/-- The text of a float in documents. -/
def document (x : Float) : String := String.ofList (Layout.document.chars x)

end FormulaQuiz.Decimal
