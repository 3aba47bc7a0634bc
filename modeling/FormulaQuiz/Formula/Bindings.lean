/-!
# Bindings

The values of variables.  A variable is bound once and keeps its value.
-/

namespace FormulaQuiz.Formula

/-- Variables with their values, in the order in which they were bound. -/
structure Bindings where
  entries : List (String × Float)
deriving Repr

namespace Bindings

/-- No variable is bound. -/
def empty : Bindings := ⟨[]⟩

/-- The value of a variable. -/
def get? (b : Bindings) (name : String) : Option Float := b.entries.lookup name

/-- Whether a variable is bound. -/
def contains (b : Bindings) (name : String) : Bool := (b.get? name).isSome

/-- How many variables are bound. -/
def size (b : Bindings) : Nat := b.entries.length

/-- Binds a variable; if it is bound already, its value is the error. -/
def bind (b : Bindings) (name : String) (x : Float) : Except Float Bindings :=
  match b.get? name with
  | some existing => .error existing
  | none => .ok ⟨b.entries ++ [(name, x)]⟩

/-- Variables with their values in the order of their names. -/
def sorted (b : Bindings) : List (String × Float) :=
  b.entries.mergeSort fun x y ↦ decide (x.1 ≤ y.1)

end Bindings

end FormulaQuiz.Formula
