import PrecedenceGrammar.Proofs.ParserInvariant

/-!
# One reduction

What a reduction does is told by the stack and the productions: the basis is
what the list of cells has above its topmost strictly less marker, the body is
the longest one at the end of the basis, and the head is that of the first
production with this body.  The rest of the stack stays as it is.
-/

namespace PrecedenceGrammar

namespace Grammar

/-- Some production has this body. -/
def IsBody (grammar : Grammar) (body : List Symbol) : Prop :=
  ∃ production ∈ grammar.productions, production.body = body

/-- The first production with the body, in the order of declaration, has the
head. -/
def IsFirstHead (grammar : Grammar) (body : List Symbol) (head : Symbol) : Prop :=
  ∃ earlier later, grammar.productions = earlier ++ ⟨head, body⟩ :: later ∧
    ∀ production ∈ earlier, production.body ≠ body

/-- A body at the end of the basis, where no longer one is. -/
structure IsLongestBody (grammar : Grammar) (basis body : List Symbol) : Prop where
  isSuffix : body <:+ basis
  isBody : grammar.IsBody body
  longest : ∀ other, other <:+ basis → grammar.IsBody other → other.length ≤ body.length

variable {grammar : Grammar} {basis body : List Symbol} {head : Symbol}

theorem IsBody.ne_nil (isBody : grammar.IsBody body) : body ≠ [] := by
  obtain ⟨production, member, rfl⟩ := isBody
  exact body_ne_nil member

theorem IsFirstHead.isBody (isFirst : grammar.IsFirstHead body head) : grammar.IsBody body := by
  obtain ⟨earlier, later, split, _⟩ := isFirst
  refine ⟨⟨head, body⟩, ?_, rfl⟩
  rw [split]
  exact List.mem_append_right _ List.mem_cons_self

/-- Two suffixes of one list are the same if they are of the same length. -/
theorem IsLongestBody.unique
    {other : List Symbol} (isLongest : grammar.IsLongestBody basis body)
    (otherLongest : grammar.IsLongestBody basis other) :
    body = other := by
  have shorter := otherLongest.longest body isLongest.isSuffix isLongest.isBody
  have longer := isLongest.longest other otherLongest.isSuffix otherLongest.isBody
  have within := List.suffix_of_suffix_length_le isLongest.isSuffix otherLongest.isSuffix shorter
  exact within.eq_of_length (Nat.le_antisymm shorter longer)

end Grammar

namespace Stack

/-- What the cells have above the topmost strictly less marker, without the
markers in between. -/
def HasBasis (stack : Stack) (basis : List Symbol) : Prop :=
  ∃ lower marker upper, stack.cells = lower ++ .relation marker :: upper ∧
    marker.isStrictlyLess = true ∧
    (∀ other, .relation other ∈ upper → other.isStrictlyLess = false) ∧
    basis = upper.filter fun cell => cell.relation?.isNone

variable {grammar : Grammar} {table : Table} {stack : Stack} {basis : List Symbol}

private theorem upper_eq_of_split
    {between upper other : List Symbol} {marker otherMarker : Relation}
    (split : .relation marker :: upper = between ++ .relation otherMarker :: other)
    (topmost : ∀ found, .relation found ∈ upper → found.isStrictlyLess = false)
    (starts : otherMarker.isStrictlyLess = true) :
    upper = other := by
  cases between with
  | nil => exact (List.cons.inj split).2
  | cons first between =>
      have further := (List.cons.inj split).2
      have passed := topmost otherMarker (by simp [further])
      rw [starts] at passed
      cases passed

/-- There is only one topmost strictly less marker. -/
theorem HasBasis.unique
    {other : List Symbol} (hasBasis : stack.HasBasis basis) (otherBasis : stack.HasBasis other) :
    basis = other := by
  obtain ⟨lower, marker, upper, split, starts, topmost, rfl⟩ := hasBasis
  obtain ⟨otherLower, otherMarker, otherUpper, otherSplit, otherStarts, otherTopmost, rfl⟩ :=
    otherBasis
  rw [split] at otherSplit
  rcases List.append_eq_append_iff.mp otherSplit with ⟨between, _, rest⟩ | ⟨between, _, rest⟩
  · rw [upper_eq_of_split rest topmost otherStarts]
  · rw [upper_eq_of_split rest otherTopmost starts]

end Stack

end PrecedenceGrammar
