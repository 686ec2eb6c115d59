/-!
# White space

The characters with the Unicode property `White_Space`.  Every rule about blank
characters uses this class.
-/

namespace PrecedenceGrammar

/-- First and last code points of the blocks of white space. -/
def whiteSpaceRanges : List (Nat × Nat) :=
  [(0x9, 0xD), (0x20, 0x20), (0x85, 0x85), (0xA0, 0xA0), (0x1680, 0x1680),
    (0x2000, 0x200A), (0x2028, 0x2029), (0x202F, 0x202F), (0x205F, 0x205F),
    (0x3000, 0x3000)]

/-- Whether a character has the Unicode property `White_Space`. -/
def isWhiteSpace (character : Char) : Bool :=
  whiteSpaceRanges.any fun (first, last) =>
    first ≤ character.toNat && character.toNat ≤ last

end PrecedenceGrammar
