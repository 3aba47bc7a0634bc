import FormulaQuiz.Formula.Value

/-!
# Integers of 64 bits

Integers come from signs.  An operation on them whose result needs more than 64 bits is a fault, and
shifts and single bits see them as words in two's complement.
-/

namespace FormulaQuiz.Formula

/-- The integers of 64 bits. -/
def isWord (n : Int) : Bool := -(1 <<< 63) ≤ n && n < 1 <<< 63

/-- An integer, or the fault that it has more than 64 bits. -/
def checkedInteger (reason : IntegerFault.Reason) (symbol : String) (left right result : Int) :
    Except Fault Value :=
  if isWord result then .ok (.integer result) else .error (.integer ⟨reason, left, symbol, right⟩)

/-- The negation of an integer. -/
def negateInteger (n : Int) : Except Fault Value :=
  if isWord (-n) then .ok (.integer (-n)) else .error (.negation n)

/-- A power of an integer; the exponents that are computed are those whose power may have 64
bits. -/
def integerPower (left right : Int) : Except Fault Value :=
  if 1 <<< 32 ≤ right then .error (.integer ⟨.power, left, "**", right⟩)
  else if right < 0 then .error (.integer ⟨.negativePower, left, "**", right⟩)
  else if left = 0 ∨ left = 1 ∨ left = -1 then
    .ok (.integer (left.pow (if right = 0 then 0 else 2 - right.toNat % 2)))
  else if 64 ≤ right then .error (.integer ⟨.power, left, "**", right⟩)
  else checkedInteger .power "**" left right (left.pow right.toNat)

/-- The value of 64 bits, the highest of which is the sign. -/
def wordValue (bits : BitVec 64) : Value := .integer bits.toInt

/-- An integer with its bits moved to the left, or to the right by a negative number of places. -/
def shiftedInteger (n places : Int) : Value :=
  let bits := BitVec.ofInt 64 n
  if 0 ≤ places then
    if 64 ≤ places then .integer 0 else wordValue (bits <<< places.toNat)
  else wordValue (bits.sshiftRight (min places.natAbs 64))

/-- The place among `size` places that an index names; a negative index counts from the end. -/
def placeAt? (size : Nat) (index : Int) : Option Nat :=
  let place := if index < 0 then index + size else index
  if 0 ≤ place ∧ place < size then some place.toNat else none

/-- Whether the bit at a place of an integer is set. -/
def bitAt (n : Int) (place : Nat) : Bool := (BitVec.ofInt 64 n).getLsbD place

/-- An integer with the bit at a place set or not. -/
def withBit (n : Int) (place : Nat) (set : Bool) : Value :=
  let bits := BitVec.ofInt 64 n
  let single : BitVec 64 := 1#64 <<< place
  wordValue (if set then bits ||| single else bits &&& ~~~single)

end FormulaQuiz.Formula
