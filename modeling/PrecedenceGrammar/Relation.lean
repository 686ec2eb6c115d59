import PrecedenceGrammar.Text.Basic

/-!
# Precedence relations

Three relations may hold between a symbol and the symbol after it.  The type
holds any combination of them, from none to all three, and gives each
combination its printed form.
-/

namespace PrecedenceGrammar

structure Relation where
  less : Bool
  equal : Bool
  greater : Bool
  deriving DecidableEq

namespace Relation

def empty : Relation := ⟨false, false, false⟩

def isEmpty (relation : Relation) : Bool :=
  !(relation.less || relation.equal || relation.greater)

/-- Less and not equal: the mark under the first symbol of a basis. -/
def isStrictlyLess (relation : Relation) : Bool :=
  relation.less && !relation.equal

/-- The pair asks for a shift: less or equal. -/
def shifts (relation : Relation) : Bool :=
  relation.less || relation.equal

/-- One sign for each relation that holds, or a blank for none. -/
def text (relation : Relation) : Text :=
  if relation.isEmpty then
    [' ']
  else
    (if relation.less then ['<'] else []) ++
      (if relation.greater then ['>'] else []) ++
      (if relation.equal then ['='] else [])

def width (relation : Relation) : Nat :=
  relation.text.length

instance : ToString Relation where
  toString relation := String.ofList relation.text

/-- A printed form of one character means that at most one relation holds. -/
theorem width_le_one_iff (relation : Relation) :
    relation.width ≤ 1 ↔
      ¬ (relation.less = true ∧ relation.equal = true) ∧
        ¬ (relation.less = true ∧ relation.greater = true) ∧
        ¬ (relation.equal = true ∧ relation.greater = true) := by
  rcases relation with ⟨_ | _, _ | _, _ | _⟩ <;> decide

end Relation

end PrecedenceGrammar
