import FormulaQuiz.Number.Dyadic

/-!
# Cube roots

The cube root of a float is the float nearest to the exact root.  The integer root of a scaled
significand has more bits than a float keeps, and one further bit says whether it is exact.
-/

namespace FormulaQuiz

/-- The greatest `r` with `r ^ 3 ≤ n` among the numbers that agree with `root` but for their last
`bits` binary digits, which are zero in `root`. -/
def cubeRootFrom (n : Nat) : (bits root : Nat) → Nat
  | 0, root => root
  | bits + 1, root =>
    let next := root + 1 <<< bits
    cubeRootFrom n bits (if next * next * next ≤ n then next else root)

namespace Dyadic

/-- The cube root of a number, exact up to its last bit, which is set when the root is not exact.
The scale leaves an exponent that three divides. -/
def cubeRoot (d : Dyadic) : Dyadic :=
  let shift := 165 + (d.exponent % 3).toNat
  let n := d.significand <<< shift
  let root := cubeRootFrom n 74 0
  ⟨d.negative, 2 * root + (if root * root * root = n then 0 else 1), (d.exponent - shift) / 3 - 1⟩

end Dyadic

/-- The float nearest to the cube root. -/
def cubeRoot (x : Float) : Float :=
  match Dyadic.ofFloat? x with
  | some d => if d.significand = 0 then x else d.cubeRoot.toFloat
  | none => x

end FormulaQuiz
