/-!
# Sources of random words

All chance enters as a stream of words of 32 bits.  What is drawn from it is a state action, so that
every statement about a draw holds for every stream.
-/

namespace FormulaQuiz.Random

/-- A source of words of 32 bits. -/
class WordSource (σ : Type) where
  /-- The next word, and the source after it. -/
  next : σ → UInt32 × σ

/-- An action that draws from a source. -/
abbrev Draw (σ : Type) := StateM σ

variable {σ : Type} [WordSource σ]

/-- Draws a word. -/
def word : Draw σ UInt32 := fun source ↦ WordSource.next source

/-- Draws a word of 64 bits, its low half first. -/
def doubleWord : Draw σ UInt64 := do
  let low ← word
  let high ← word
  return high.toUInt64 <<< 32 ||| low.toUInt64

/-- How many bits a draw takes. -/
inductive Width where
  | single
  | double
deriving DecidableEq, Repr

namespace Width

/-- The number of bits. -/
def bits : Width → Nat
  | single => 32
  | double => 64

/-- Draws a number of that many bits. -/
def draw : Width → Draw σ Nat
  | single => do return (← word).toNat
  | double => do return (← doubleWord).toNat

end Width

/-- The greatest low half of a product that does not favour an index below `n`. -/
def zone (width : Width) (n : Nat) : Nat := n <<< (width.bits - 1 - n.log2) - 1

/-- Draws an index below `n`: the high half of `n` times a draw whose low half lies in the zone.
After `retries` draws outside it the next draw is taken as it is. -/
def indexWithin (width : Width) (n : Nat) : (retries : Nat) → Draw σ Nat
  | 0 => do return ((← width.draw) * n) >>> width.bits
  | retries + 1 => do
    let product := (← width.draw) * n
    if product % 1 <<< width.bits ≤ zone width n then return product >>> width.bits
    else indexWithin width n retries

/-- Draws an index below `n`, each equally likely.  A draw lies outside the zone with a chance of
less than one half, so the retries never run out. -/
def index (width : Width) (n : Nat) : Draw σ Nat := indexWithin width n 4096

/-- Exchanges the item at each position from `i` down to one with one at or before it. -/
def shuffleFrom {α : Type} : (i : Nat) → Array α → Draw σ (Array α)
  | 0, items => return items
  | i + 1, items => do
    let j ← index .single (i + 2)
    shuffleFrom i (items.swapIfInBounds (i + 1) j)

/-- A list in random order. -/
def shuffle {α : Type} (items : List α) : Draw σ (List α) := do
  return (← shuffleFrom (items.length - 1) items.toArray).toList

end FormulaQuiz.Random
