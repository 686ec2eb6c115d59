/-!
# Sources of choices

Whoever has to choose asks a source for one of a number of candidates.  What
the source draws on is its own matter.
-/

namespace PrecedenceGrammar

/-- Picks one of `count` candidates and goes on with what remains of the
source, unless the source has no choice to give. -/
class ChoiceSource (σ : Type) where
  choose : (count : Nat) → σ → Option (Fin count × σ)

end PrecedenceGrammar
