import PrecedenceGrammar.Random.ChoiceSource

/-!
# Choices from words

A stream of 32-bit words is a source of choices: a word is scaled to the number
of candidates and thrown away when its low half lies beyond a zone, so that all
candidates are equally likely.  The words of a stream repeat, and one period
without an acceptable word means that none will ever come.
-/

namespace PrecedenceGrammar

/-- An endless sequence of words with a period, read from a position on. -/
structure WordStream where
  word : Nat → UInt32
  period : Nat
  position : Nat

namespace WordStream

/-- The words of a nonempty list, repeated in a cycle. -/
def cycle (first : UInt32) (later : List UInt32) : WordStream where
  word index := (first :: later).getD (index % (later.length + 1)) first
  period := later.length + 1
  position := 0

/-- The greatest low half of an acceptable product: one less than the number of
candidates shifted to the top of a word. -/
def zone (count : Nat) : Nat :=
  (count <<< (31 - count.log2) + (UInt32.size - 1)) % UInt32.size

/-- A scaled word is always the index of a candidate. -/
theorem scaled_lt {count : Nat} (positive : 0 < count) (word : UInt32) :
    word.toNat * count / UInt32.size < count :=
  Nat.div_lt_of_lt_mul (Nat.mul_lt_mul_of_pos_right word.toNat_lt_size positive)

/-- The candidate that a word picks, if the word is acceptable. -/
def pick? (count : Nat) (word : UInt32) : Option (Fin count) :=
  let product := word.toNat * count
  if positive : 0 < count then
    if product % UInt32.size ≤ zone count then
      some ⟨product / UInt32.size, scaled_lt positive word⟩
    else
      none
  else
    none

/-- The pick of the first acceptable word among the next ones, as many as
allowed. -/
def chooseWithin (count : Nat) : Nat → WordStream → Option (Fin count × WordStream)
  | 0, _ => none
  | allowed + 1, stream =>
    let later := { stream with position := stream.position + 1 }
    match pick? count (stream.word stream.position) with
    | some index => some (index, later)
    | none => chooseWithin count allowed later

instance : ChoiceSource WordStream where
  choose count stream := chooseWithin count stream.period stream

end WordStream

end PrecedenceGrammar
