import PrecedenceGrammar.Random.WordStream

/-!
# Seeded words

A 64-bit seed is spread over a key by a permuted congruential generator.  The
words are the blocks of the ChaCha stream cipher with twelve rounds under that
key, whose block counter has 64 bits.
-/

namespace PrecedenceGrammar.ChaCha

abbrev Block := Vector UInt32 16

def rotateLeft (word amount : UInt32) : UInt32 :=
  (word <<< amount) ||| (word >>> (32 - amount))

/-- Adds one word to another and rotates the difference of the result with a
third. -/
def mix (target source mixed : Fin 16) (amount : UInt32) (block : Block) : Block :=
  let sum := block[target] + block[source]
  (block.set target sum).set mixed (rotateLeft (block[mixed] ^^^ sum) amount)

def quarterRound (a b c d : Fin 16) (block : Block) : Block :=
  block |> mix a b d 16 |> mix c d b 12 |> mix a b d 8 |> mix c d b 7

/-- One round over the columns and one over the diagonals. -/
def doubleRound (block : Block) : Block :=
  block
    |> quarterRound 0 4 8 12 |> quarterRound 1 5 9 13
    |> quarterRound 2 6 10 14 |> quarterRound 3 7 11 15
    |> quarterRound 0 5 10 15 |> quarterRound 1 6 11 12
    |> quarterRound 2 7 8 13 |> quarterRound 3 4 9 14

/-- The state of the key generator after a seed or an earlier state. -/
def nextState (state : UInt64) : UInt64 :=
  state * 6364136223846793005 + 11634580027462260723

/-- The key word of a state: folded bits rotated to the right by the number in
its top five bits. -/
def keyWord (state : UInt64) : UInt32 :=
  let folded : UInt32 := (((state >>> 18) ^^^ state) >>> 27).toUInt32
  let amount : UInt32 := (state >>> 59).toUInt32
  rotateLeft folded (32 - amount)

def key (seed : UInt64) : Vector UInt32 8 :=
  Vector.ofFn fun index => keyWord (Nat.repeat nextState (index + 1) seed)

/-- The block before the rounds: constants, key, counter and two zeros. -/
def initialBlock (key : Vector UInt32 8) (counter : UInt64) : Block :=
  let constants : Vector UInt32 4 := #v[0x61707865, 0x3320646e, 0x79622d32, 0x6b206574]
  let counters : Vector UInt32 4 := #v[counter.toUInt32, (counter >>> 32).toUInt32, 0, 0]
  constants ++ key ++ counters

/-- A block of words: six double rounds, added to the block before them. -/
def block (key : Vector UInt32 8) (counter : UInt64) : Block :=
  let before := initialBlock key counter
  let after := Nat.repeat doubleRound 6 before
  before.zipWith (· + ·) after

end PrecedenceGrammar.ChaCha

namespace PrecedenceGrammar

/-- The words of a seed, block after block.  They repeat when the counter
does. -/
def WordStream.ofSeed (seed : UInt64) : WordStream :=
  let key := ChaCha.key seed
  { word := fun index =>
      (ChaCha.block key (index / 16).toUInt64).get ⟨index % 16, Nat.mod_lt _ (by decide)⟩
    period := 16 * UInt64.size
    position := 0 }

end PrecedenceGrammar
