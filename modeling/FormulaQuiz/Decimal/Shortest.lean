import FormulaQuiz.Decimal.Digits
import FormulaQuiz.Number.Dyadic

/-!
# The fewest digits that read back

A decimal identifies a float when it lies in the interval of reals that round to the float.  For
1, 2, … digits the two neighbours of the value on that decimal grid are tested exactly; the first
grid with a neighbour in the interval wins, and of two the nearer one.
-/

namespace FormulaQuiz.Decimal

/-- The magnitude `0.d₁d₂… · 10^point`. -/
structure Scaled where
  /-- The digits `d₁d₂…`. -/
  digits : List Char
  /-- How many of the digits stand before the decimal point; it may lie outside them. -/
  point : Int
deriving DecidableEq, Repr

/-- What happens when two decimals of one length are equally near to a value. -/
inductive Tie where
  /-- The larger one is taken. -/
  | upward
  /-- The one that ends in an even digit is taken. -/
  | toEven
deriving DecidableEq, Repr

/-- A half-open range of exact multiples of `2^exponent` around a float, with the float in it. -/
structure Surround where
  /-- The lower end. -/
  low : Nat
  /-- The value of the float. -/
  value : Nat
  /-- The upper end. -/
  high : Nat
  /-- The power of two that a unit stands for. -/
  exponent : Int
  /-- Whether the ends themselves round to the float. -/
  closed : Bool

/-- The reals that round to a positive float: half a unit of its significand to both sides, or a
quarter below it when a smaller exponent begins there. -/
def surround (significand : Nat) (exponent : Int) : Surround where
  low := 4 * significand - if significand = 1 <<< 52 ∧ exponent ≠ -1074 then 1 else 2
  value := 4 * significand
  high := 4 * significand + 2
  exponent := exponent - 2
  closed := significand % 2 == 0

namespace Surround

/-- A number of units, scaled to be compared with decimals whose last place is `10^place`. -/
def scaleUnits (s : Surround) (place : Int) (units : Nat) : Nat :=
  units <<< s.exponent.toNat * Nat.pow 10 (-place).toNat

/-- The decimal `n · 10^place`, scaled to be compared with units. -/
def scaleDecimal (s : Surround) (place : Int) (n : Nat) : Nat :=
  (n * Nat.pow 10 place.toNat) <<< (-s.exponent).toNat

/-- Whether the decimal `n · 10^place` rounds to the float. -/
def holds (s : Surround) (place : Int) (n : Nat) : Bool :=
  let low := s.scaleUnits place s.low
  let high := s.scaleUnits place s.high
  let x := s.scaleDecimal place n
  if s.closed then low ≤ x && x ≤ high else low < x && x < high

/-- The number of decimal digits before the point of the value; for a value below one, less by the
zeros that follow the point.  The value is lifted above one to count them: a power of ten outweighs
the same power of two, and no positive float lies below `10^-350`. -/
def magnitude (s : Surround) : Int :=
  let lift : Nat := min (-s.exponent).toNat 350
  let whole := (s.value <<< s.exponent.toNat * Nat.pow 10 lift) >>> (-s.exponent).toNat
  ((digits whole).length : Int) - lift

/-- The neighbour of the value among the multiples of `10^place` that reads back, the nearer of
two. -/
def neighbour? (s : Surround) (tie : Tie) (place : Int) : Option Nat :=
  let x := s.scaleUnits place s.value
  let step := s.scaleDecimal place 1
  let below := x / step
  let above := below + 1
  let gapBelow := x - s.scaleDecimal place below
  let gapAbove := s.scaleDecimal place above - x
  if s.holds place below then
    if s.holds place above then
      match compare gapBelow gapAbove, tie with
      | .lt, _ => some below
      | .gt, _ => some above
      | .eq, .upward => some above
      | .eq, .toEven => some (if below % 2 = 0 then below else above)
    else some below
  else if s.holds place above then some above
  else none

/-- The first of the grids with `count`, `count + 1`, … digits that has a neighbour reading back, or
the neighbour below on the grid after `fuel` of them. -/
def search (s : Surround) (tie : Tie) (magnitude : Int) : (fuel count : Nat) → Nat × Int
  | 0, count =>
    let place := magnitude - count
    (s.scaleUnits place s.value / s.scaleDecimal place 1, place)
  | fuel + 1, count =>
    let place := magnitude - count
    match s.neighbour? tie place with
    | some n => (n, place)
    | none => search s tie magnitude fuel (count + 1)

end Surround

/-- The shortest decimal that reads back as the float `significand · 2^exponent`; seventeen digits
always suffice. -/
def shortest (tie : Tie) (significand : Nat) (exponent : Int) : Scaled :=
  let s := surround significand exponent
  let (n, place) := s.search tie s.magnitude 17 1
  let ds := digits n
  ⟨dropTrailing '0' ds, ds.length + place⟩

end FormulaQuiz.Decimal
