import FormulaQuiz.Decimal.Notation
import FormulaQuiz.Decimal.Numeral

/-!
# What a number literal denotes

Integers of 64 bits are exact.  Any other number is a float made from the digits that fit into 64
bits by one multiplication or division with a power of ten; it may differ from the nearest float in
the last bit.
-/

namespace FormulaQuiz.Json

/-- What a number literal denotes. -/
inductive Number where
  /-- A natural number of 64 bits. -/
  | natural (n : Nat)
  /-- A negative integer of 64 bits, by its magnitude. -/
  | negative (n : Nat)
  /-- Any other number up to the greatest float. -/
  | real (x : Float)
  /-- A number of greater magnitude than every float. -/
  | beyond
deriving Repr

/-- The greatest natural number of 64 bits. -/
def wordMax : Nat := 1 <<< 64 - 1

/-- A float times ten to a power: one product or quotient, after divisions by `10^308` for a very
small power; none beyond the greatest float. -/
def scaleByTen? (x : Float) (exponent : Int) : Option Float :=
  if exponent.natAbs ≤ 308 then
    let power := Decimal.nearestFloat 1 exponent.natAbs
    if 0 ≤ exponent then
      let y := x * power
      if y.isInf then none else some y
    else some (x / power)
  else if x == 0 then some x
  else if 0 ≤ exponent then none
  else
    let steps := (exponent.natAbs - 1) / 308
    let y := (List.replicate (min steps 4) (Decimal.nearestFloat 1 308)).foldl (· / ·) x
    if y == 0 then some y else some (y / Decimal.nearestFloat 1 (exponent.natAbs - 308 * steps))

/-- A significand of digits as far as they fit into 64 bits. -/
structure Significand where
  /-- The digits that fit. -/
  value : Nat
  /-- The power of ten that the last of them stands for. -/
  exponent : Int
  /-- Whether no further digit is taken. -/
  full : Bool

namespace Significand

/-- Appends a digit of the integer part. -/
def pushWhole (s : Significand) (d : Char) : Significand :=
  let next := 10 * s.value + Decimal.digitValue d
  if s.full || decide (wordMax < next) then ⟨s.value, s.exponent + 1, true⟩
  else ⟨next, s.exponent, false⟩

/-- Appends a digit of the fraction. -/
def pushFraction (s : Significand) (d : Char) : Significand :=
  let next := 10 * s.value + Decimal.digitValue d
  if s.full || decide (wordMax < next) then { s with full := true }
  else ⟨next, s.exponent - 1, false⟩

end Significand

/-- The greatest exponent that is read digit by digit. -/
def exponentMax : Nat := 1 <<< 31 - 1

/-- The magnitude that the parts of a number literal denote; none beyond the greatest float. -/
def partsValue? (whole places exponent : List Char) : Option Float :=
  let integral := whole.foldl Significand.pushWhole ⟨0, 0, false⟩
  let s := places.foldl Significand.pushFraction { integral with full := false }
  let shift := Decimal.exponentValue exponent
  if exponentMax < shift.natAbs then
    if s.value ≠ 0 ∧ 0 < shift then none else some 0
  else scaleByTen? (Decimal.nearestFloat s.value 0) (s.exponent + shift)

/-- What a number literal denotes. -/
def Number.ofLiteral (literal : String) : Number :=
  let cs := literal.toList
  let isNegative := cs.head? == some '-'
  let magnitude := if isNegative then cs.drop 1 else cs
  let (whole, afterWhole) := Decimal.splitDigits magnitude
  let (fraction, exponent) := Decimal.splitFraction afterWhole
  let n := Decimal.value whole
  let isInteger := fraction.isEmpty && exponent.isEmpty
  if isInteger && !isNegative && decide (n ≤ wordMax) then .natural n
  else if isInteger && isNegative && decide (0 < n ∧ n ≤ 1 <<< 63) then .negative n
  else match partsValue? whole (fraction.drop 1) exponent with
    | none => .beyond
    | some x => .real (if isNegative then -x else x)

namespace Number

/-- The float nearest to a number. -/
def toFloat? : Number → Option Float
  | .natural n => some (Decimal.nearestFloat n 0)
  | .negative n => some (-Decimal.nearestFloat n 0)
  | .real x => some x
  | .beyond => none

/-- A natural number up to a limit. -/
def toNat? (limit : Nat) : Number → Option Nat
  | .natural n => if n ≤ limit then some n else none
  | _ => none

/-- The literal that a number is printed as. -/
def literal : Number → String
  | .natural n => Decimal.natText n
  | .negative n => String.ofList ('-' :: Decimal.digits n)
  | .real x => Decimal.document x
  | .beyond => "null"

end Number

end FormulaQuiz.Json
