import PrecedenceGrammar.Proofs.HandlePrecedence
import PrecedenceGrammar.Proofs.SuitableGrammars

/-!
# Uniqueness of handles

Where the relations tell handles apart, a form has one handle only, so its
rightmost derivation can be read backwards in one way.  The one thing left to
exclude is a start symbol that comes back to itself.
-/

namespace PrecedenceGrammar

open PrecedenceGrammar.Symbol (lastOf firstOf Settled)

namespace Grammar

/-- No two productions with different heads have the same body. -/
def DistinctBodies (grammar : Grammar) : Prop :=
  ∀ production ∈ grammar.productions, ∀ other ∈ grammar.productions,
    production.body = other.body → production.head = other.head

instance (grammar : Grammar) : Decidable grammar.DistinctBodies := by
  unfold DistinctBodies
  infer_instance

variable {grammar : Grammar}

theorem DistinctBodies.eq_of_body_eq
    {production other : Production} (distinct : grammar.DistinctBodies)
    (member : production ∈ grammar.productions) (otherMember : other ∈ grammar.productions)
    (same : production.body = other.body) :
    production = other := by
  have heads := distinct production member other otherMember same
  cases production
  cases other
  cases heads
  cases same
  rfl

/-- No form shifts beyond the end of a handle. -/
theorem HandleMarks.gap_eq_nil
    {before gap after : List Symbol} {production : Production}
    (marks : grammar.HandleMarks before production (gap ++ after))
    (separates : grammar.Separates) (member : production ∈ grammar.productions)
    (shifts : (Symbol.startMarker :: (before ++ production.body ++ gap)).IsChain grammar.Shifts) :
    gap = [] := by
  cases gap with
  | nil => rfl
  | cons next gap =>
      have shifted : grammar.Shifts (lastOf (before ++ production.body)) next :=
        (Symbol.isChain_startMarker_append_iff.mp shifts).2.2 next rfl
      have greater : grammar.Greater (lastOf (before ++ production.body)) next :=
        marks.end_greater member
      exact absurd greater (separates.not_greater _ next shifted)

/-- No handle is continued to the left by a longer body. -/
theorem HandleMarks.front_eq_nil
    {before front after : List Symbol} {production other : Production}
    (marks : grammar.HandleMarks (before ++ front) production after)
    (separates : grammar.Separates) (member : production ∈ grammar.productions)
    (otherMember : other ∈ grammar.productions)
    (split : other.body = front ++ production.body) :
    front = [] := by
  rcases List.eq_nil_or_concat' front with empty | ⟨start, last, rfl⟩
  · exact empty
  · have shifts := marks.head_shifts
    rw [← List.append_assoc, Symbol.lastOf_append_singleton] at shifts
    have longer : other.body = start ++ last :: production.body := by simpa using split
    exact absurd shifts
      (separates.no_suffix production member other otherMember start last longer)

theorem HandleMarks.same_end
    {before after left right : List Symbol} {production other : Production}
    (marks : grammar.HandleMarks before production after)
    (others : grammar.HandleMarks left other right)
    (separates : grammar.Separates) (member : production ∈ grammar.productions)
    (otherMember : other ∈ grammar.productions)
    (same : before ++ production.body ++ after = left ++ other.body ++ right) :
    before ++ production.body = left ++ other.body ∧ after = right := by
  rcases List.append_eq_append_iff.mp same with ⟨gap, further, rfl⟩ | ⟨gap, further, rfl⟩
  · have shifts := others.shifts
    rw [further] at shifts
    have none_between := marks.gap_eq_nil separates member shifts
    subst gap
    exact ⟨by simpa using further.symm, rfl⟩
  · have shifts := marks.shifts
    rw [further] at shifts
    have none_between := others.gap_eq_nil separates otherMember shifts
    subst gap
    exact ⟨by simpa using further, rfl⟩

theorem HandleMarks.same_begin
    {before after left right : List Symbol} {production other : Production}
    (marks : grammar.HandleMarks before production after)
    (others : grammar.HandleMarks left other right)
    (separates : grammar.Separates) (member : production ∈ grammar.productions)
    (otherMember : other ∈ grammar.productions)
    (same : before ++ production.body = left ++ other.body) :
    before = left ∧ production.body = other.body := by
  rcases List.append_eq_append_iff.mp same with ⟨front, rfl, split⟩ | ⟨front, rfl, split⟩
  · have nothing := others.front_eq_nil separates otherMember member split
    subst front
    exact ⟨by simp, split⟩
  · have nothing := marks.front_eq_nil separates member otherMember split
    subst front
    exact ⟨by simp, split.symm⟩

theorem rewritesRightmost_origin_unique
    {origin other target : List Symbol} (separates : grammar.Separates)
    (distinct : grammar.DistinctBodies)
    (derivation : grammar.DerivesRightmost [grammar.start] origin)
    (otherDerivation : grammar.DerivesRightmost [grammar.start] other)
    (rewrite : grammar.RewritesRightmost origin target)
    (otherRewrite : grammar.RewritesRightmost other target) :
    origin = other := by
  obtain ⟨before, after, production, member, settled⟩ := rewrite
  generalize target_eq : before ++ production.body ++ after = target at otherRewrite
  obtain ⟨left, right, other, otherMember, otherSettled⟩ := otherRewrite
  have marks := handleMarks_of_derivesRightmost derivation member settled
  have others := handleMarks_of_derivesRightmost otherDerivation otherMember otherSettled
  obtain ⟨same, rfl⟩ := marks.same_end others separates member otherMember target_eq
  obtain ⟨rfl, sameBody⟩ := marks.same_begin others separates member otherMember same
  rw [distinct.eq_of_body_eq member otherMember sameBody]

theorem RightmostDerivation.last_step
    {origin target last : List Symbol} {earlier : List (List Symbol)}
    (derivation : grammar.RightmostDerivation origin target (earlier ++ [last])) :
    last = target ∧ (earlier = [] ∧ origin = target ∨
      ∃ middle, grammar.RightmostDerivation origin middle earlier ∧
        grammar.RewritesRightmost middle target) := by
  have last_eq : last = target := by simpa using derivation.ends
  subst last
  refine ⟨rfl, ?_⟩
  rcases List.eq_nil_or_concat' earlier with rfl | ⟨before, middle, rfl⟩
  · exact Or.inl ⟨rfl, (Option.some.inj derivation.starts).symm⟩
  · refine Or.inr ⟨middle, ⟨?_, by simp, derivation.rewrites.left_of_append⟩, ?_⟩
    · have starts := derivation.starts
      rw [List.head?_append_of_ne_nil _ (by simp)] at starts
      exact starts
    · exact (List.isChain_append.mp derivation.rewrites).2.2 middle (by simp) target rfl

/-- A start symbol that does not come back to itself is the last form of no
rightmost step. -/
theorem not_rewritesRightmost_start
    {middle : List Symbol} (acyclic : ¬ Relation.TransGen grammar.Rewrites [grammar.start]
      [grammar.start])
    (derivation : grammar.DerivesRightmost [grammar.start] middle) :
    ¬ grammar.RewritesRightmost middle [grammar.start] := by
  intro rewrite
  have path : Relation.ReflTransGen grammar.Rewrites [grammar.start] middle :=
    Relation.ReflTransGen.mono (fun _ _ step => step.rewrites) _ _ derivation
  exact acyclic (Relation.TransGen.tail' path rewrite.rewrites)

/-- A text has at most one rightmost derivation in a grammar that can be parsed
with its own table. -/
theorem rightmostDerivation_unique
    {target : List Symbol} {forms others : List (List Symbol)}
    (suitable : (grammar.typeWith (Table.ofGrammar grammar)).allowsParsing = true)
    (distinct : grammar.DistinctBodies)
    (acyclic : ¬ Relation.TransGen grammar.Rewrites [grammar.start] [grammar.start])
    (derivation : grammar.RightmostDerivation [grammar.start] target forms)
    (other : grammar.RightmostDerivation [grammar.start] target others) :
    forms = others := by
  have separates := separates_of_allowsParsing suitable
  induction forms using List.reverseRecOn generalizing target others with
  | nil => cases derivation.starts
  | append_singleton earlier last induction =>
      obtain ⟨otherEarlier, rfl⟩ := List.getLast?_eq_some_iff.mp other.ends
      obtain ⟨rfl, steps⟩ := derivation.last_step
      obtain ⟨_, otherSteps⟩ := other.last_step
      rcases steps with ⟨rfl, rfl⟩ | ⟨middle, shorter, rewrite⟩
      · rcases otherSteps with ⟨rfl, _⟩ | ⟨middle, otherShorter, otherRewrite⟩
        · rfl
        · exact absurd otherRewrite
            (not_rewritesRightmost_start acyclic otherShorter.derivesRightmost)
      · rcases otherSteps with ⟨rfl, rfl⟩ | ⟨otherMiddle, otherShorter, otherRewrite⟩
        · exact absurd rewrite (not_rewritesRightmost_start acyclic shorter.derivesRightmost)
        · have sameMiddle := rewritesRightmost_origin_unique separates distinct
            shorter.derivesRightmost otherShorter.derivesRightmost rewrite otherRewrite
          subst otherMiddle
          rw [induction shorter otherShorter]

theorem Rewrites.length_le
    {origin target : List Symbol} (rewrite : grammar.Rewrites origin target) :
    0 < origin.length ∧ origin.length ≤ target.length := by
  obtain ⟨before, after, production, member⟩ := rewrite
  have nonempty : 0 < production.body.length := List.length_pos_iff.mpr (body_ne_nil member)
  simp only [List.length_append, List.length_cons]
  omega

/-- A symbol becomes another by productions with one symbol in their bodies. -/
theorem transGen_unit_of_transGen_rewrites
    {symbol : Symbol} {target : List Symbol}
    (path : Relation.TransGen grammar.Rewrites [symbol] target) :
    ∀ found, target = [found] →
      Relation.TransGen (fun head only => ⟨head, [only]⟩ ∈ grammar.productions) symbol found := by
  induction path with
  | single rewrite =>
      intro found target_eq
      subst target_eq
      exact .single rewrite.mem_productions
  | @tail middle target _ rewrite induction =>
      intro found target_eq
      subst target_eq
      obtain ⟨nonempty, bounded⟩ := rewrite.length_le
      obtain ⟨between, rfl⟩ : ∃ between, middle = [between] :=
        List.length_eq_one_iff.mp (Nat.le_antisymm bounded nonempty)
      exact .tail (induction between rfl) rewrite.mem_productions

private theorem sums_unit_iff
    {head only : Symbol} :
    ⟨head, [only]⟩ ∈ sums.productions ↔
      head = .nonterminal 'E' ∧ only = .nonterminal 'T' ∨
        head = .nonterminal 'T' ∧ only = .terminal 'a' := by
  simp [sums]

theorem sums_acyclic : ¬ Relation.TransGen sums.Rewrites [sums.start] [sums.start] := by
  intro path
  have settles : ∀ found,
      Relation.TransGen (fun head only => ⟨head, [only]⟩ ∈ sums.productions)
        (.nonterminal 'E') found →
      found = .nonterminal 'T' ∨ found = .terminal 'a' := by
    intro found units
    induction units with
    | single unit =>
        left
        simpa [sums_unit_iff] using unit
    | tail _ unit induction =>
        rcases induction with rfl | rfl
        · right
          simpa [sums_unit_iff] using unit
        · simp [sums_unit_iff] at unit
  rcases settles _ (transGen_unit_of_transGen_rewrites path _ rfl) with isProduct | isLetter
  · cases isProduct
  · cases isLetter

theorem sumsForms_unique :
    sumsForms.dropLast ++ [Symbol.terminals ['a', '+', 'a', '*', 'a']] = sumsForms :=
  rightmostDerivation_unique (by decide) (by decide) sums_acyclic sums_rightmostDerivation
    sums_rightmostDerivation

end Grammar

end PrecedenceGrammar
