import FormulaQuiz.Random.Source

/-!
# The generator

A seed of 64 bits gives the key of the ChaCha stream cipher with twelve rounds; its keystream from
block zero is the source of random words.
-/

namespace FormulaQuiz.Random

/-- The sixteen words of a block. -/
abbrev Block := Vector UInt32 16

/-- A word turned to the left; no bit is lost. -/
def turnLeft (x : UInt32) (n : UInt32) : UInt32 := x <<< n ||| x >>> (32 - n)

/-- Mixes four words of a block. -/
def mix (b : Block) (i j k l : Fin 16) : Block :=
  let b := b.set i (b[i] + b[j])
  let b := b.set l (turnLeft (b[l] ^^^ b[i]) 16)
  let b := b.set k (b[k] + b[l])
  let b := b.set j (turnLeft (b[j] ^^^ b[k]) 12)
  let b := b.set i (b[i] + b[j])
  let b := b.set l (turnLeft (b[l] ^^^ b[i]) 8)
  let b := b.set k (b[k] + b[l])
  b.set j (turnLeft (b[j] ^^^ b[k]) 7)

/-- Mixes the columns of a block, then its diagonals. -/
def doubleRound (b : Block) : Block :=
  let b := mix b 0 4 8 12
  let b := mix b 1 5 9 13
  let b := mix b 2 6 10 14
  let b := mix b 3 7 11 15
  let b := mix b 0 5 10 15
  let b := mix b 1 6 11 12
  let b := mix b 2 7 8 13
  mix b 3 4 9 14

/-- The key of a keystream. -/
abbrev Key := Vector UInt32 8

/-- The block that a block of the keystream is computed from. -/
def initialBlock (key : Key) (counter : UInt64) : Block :=
  #v[0x61707865, 0x3320646e, 0x79622d32, 0x6b206574, key[0], key[1], key[2], key[3], key[4],
    key[5], key[6], key[7], counter.toUInt32, (counter >>> 32).toUInt32, 0, 0]

/-- A block of the keystream. -/
def keystreamBlock (key : Key) (counter : UInt64) : Block :=
  let initial := initialBlock key counter
  initial.zipWith (· + ·) (Nat.repeat doubleRound 6 initial)

/-- The step of the generator that spreads a seed over a key. -/
def spread (s : UInt64) : UInt64 := s * 6364136223846793005 + 11634580027462260723

/-- The key word of a state of that generator. -/
def spreadWord (s : UInt64) : UInt32 :=
  let mixed := (((s >>> 18) ^^^ s) >>> 27).toUInt32
  let turn := (s >>> 59).toUInt32
  if turn = 0 then mixed else mixed >>> turn ||| mixed <<< (32 - turn)

/-- The key of a seed. -/
def keyOfSeed (seed : UInt64) : Key :=
  Vector.ofFn fun i ↦ spreadWord (Nat.repeat spread (i.val + 1) seed)

/-- A place in a keystream. -/
structure ChaCha where
  key : Key
  /-- The number of the block after those whose words have been taken. -/
  counter : UInt64
  /-- The words of the last block that are still to be taken. -/
  words : List UInt32

namespace ChaCha

/-- The beginning of the keystream of a seed. -/
def ofSeed (seed : UInt64) : ChaCha := ⟨keyOfSeed seed, 0, []⟩

/-- The next word of the keystream. -/
def next (g : ChaCha) : UInt32 × ChaCha :=
  match g.words with
  | w :: words => (w, { g with words })
  | [] =>
    let block := keystreamBlock g.key g.counter
    (block[0], { g with counter := g.counter + 1, words := block.toList.tail })

instance instWordSource : WordSource ChaCha := ⟨next⟩

end ChaCha

end FormulaQuiz.Random
