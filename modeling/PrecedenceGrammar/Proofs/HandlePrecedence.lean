import PrecedenceGrammar.Proofs.RightmostDerivations
import PrecedenceGrammar.Proofs.TableRelations

/-!
# The relations around a handle

A handle is the body that the last step of a rightmost derivation has put in
place of its head.  In the form that it stands in, the relations shift up to
the end of the handle and are greater there, so they show where it ends.
-/

namespace PrecedenceGrammar

namespace Symbol

/-- The last symbol behind the start marker, which may be the marker itself. -/
def lastOf (before : List Symbol) : Symbol :=
  (Symbol.startMarker :: before).getLast (List.cons_ne_nil _ _)

/-- The first symbol in front of the end marker, which may be the marker
itself. -/
def firstOf (after : List Symbol) : Symbol :=
  (after ++ [Symbol.endMarker]).head (by simp)

@[simp] theorem lastOf_nil : lastOf [] = .startMarker := rfl

@[simp] theorem lastOf_append_singleton (before : List Symbol) (symbol : Symbol) :
    lastOf (before ++ [symbol]) = symbol := by
  simp [lastOf]

@[simp] theorem firstOf_nil : firstOf [] = .endMarker := rfl

@[simp] theorem firstOf_cons (symbol : Symbol) (after : List Symbol) :
    firstOf (symbol :: after) = symbol := rfl

theorem firstOf_append
    {body after : List Symbol} {first : Symbol} (leads : body.head? = some first) :
    firstOf (body ++ after) = first := by
  cases body with
  | nil => cases leads
  | cons symbol later => exact Option.some.inj leads

theorem isChain_startMarker_append_iff
    {related : Symbol → Symbol → Prop} {before later : List Symbol} :
    (Symbol.startMarker :: (before ++ later)).IsChain related ↔
      (Symbol.startMarker :: before).IsChain related ∧ later.IsChain related ∧
        ∀ first ∈ later.head?, related (lastOf before) first := by
  have last : (Symbol.startMarker :: before).getLast? = some (lastOf before) :=
    List.getLast?_eq_some_getLast _
  rw [← List.cons_append, List.isChain_append, last]
  simp

end Symbol

open PrecedenceGrammar.Symbol (lastOf firstOf Settled)

namespace Grammar

variable {grammar : Grammar}

theorem body_isChain_adjacent
    {production : Production} (member : production ∈ grammar.productions) :
    production.body.IsChain grammar.Adjacent := by
  apply (List.isChain_isInfix production.body).imp
  intro left right inside
  obtain ⟨before, after, split⟩ := inside
  exact ⟨production, member, before, after, by simpa using split.symm⟩

theorem reaches_of_head?
    {production : Production} {first : Symbol} (member : production ∈ grammar.productions)
    (leads : production.body.head? = some first) :
    grammar.Reaches .leading production.head first :=
  .single (exposes_iff.mpr ⟨production.body, member, leads⟩)

theorem reaches_of_getLast?
    {production : Production} {last : Symbol} (member : production ∈ grammar.productions)
    (trails : production.body.getLast? = some last) :
    grammar.Reaches .trailing production.head last :=
  .single (exposes_iff.mpr ⟨production.body, member, trails⟩)

/-- The last nonterminal of a form: everything up to it shifts, and what ends
it is greater than what comes after it. -/
structure Expandable (grammar : Grammar) (before : List Symbol) (head : Symbol)
    (after : List Symbol) : Prop where
  shifts : (Symbol.startMarker :: (before ++ [head])).IsChain grammar.Shifts
  ends_greater : ∀ last, grammar.Reaches .trailing head last →
    grammar.Greater last (firstOf after)

/-- The relations around a handle, the body of a production within a form. -/
structure HandleMarks (grammar : Grammar) (before : List Symbol) (production : Production)
    (after : List Symbol) : Prop where
  before_shifts : (Symbol.startMarker :: before).IsChain grammar.Shifts
  head_shifts : grammar.Shifts (lastOf before) production.head
  first_less : ∀ first ∈ production.body.head?, grammar.Less (lastOf before) first
  body_adjacent : production.body.IsChain grammar.Adjacent
  last_greater : ∀ last ∈ production.body.getLast?, grammar.Greater last (firstOf after)

theorem Expandable.handleMarks
    {before after : List Symbol} {production : Production}
    (expandable : grammar.Expandable before production.head after)
    (member : production ∈ grammar.productions) :
    grammar.HandleMarks before production after := by
  obtain ⟨beforeShifts, _, headShifts⟩ :=
    Symbol.isChain_startMarker_append_iff.mp expandable.shifts
  have shiftsHead := headShifts production.head rfl
  exact {
    before_shifts := beforeShifts
    head_shifts := shiftsHead
    first_less := fun first leads => shiftsHead.less_of_reaches (reaches_of_head? member leads)
    body_adjacent := body_isChain_adjacent member
    last_greater := fun last trails =>
      expandable.ends_greater last (reaches_of_getLast? member trails) }

/-- The form shifts all the way through a handle. -/
theorem HandleMarks.shifts
    {before after : List Symbol} {production : Production}
    (marks : grammar.HandleMarks before production after) :
    (Symbol.startMarker :: (before ++ production.body)).IsChain grammar.Shifts := by
  apply Symbol.isChain_startMarker_append_iff.mpr
  refine ⟨marks.before_shifts, marks.body_adjacent.imp fun _ _ adjacent => Or.inr adjacent, ?_⟩
  intro first leads
  exact Or.inl (marks.first_less first leads)

/-- The form stops to shift at the end of a handle. -/
theorem HandleMarks.end_greater
    {before after : List Symbol} {production : Production}
    (marks : grammar.HandleMarks before production after)
    (member : production ∈ grammar.productions) :
    grammar.Greater (lastOf (before ++ production.body)) (firstOf after) := by
  obtain ⟨front, last, body_eq⟩ :=
    (List.eq_nil_or_concat' production.body).resolve_left (body_ne_nil member)
  have trails : production.body.getLast? = some last := by simp [body_eq]
  rw [body_eq, ← List.append_assoc, Symbol.lastOf_append_singleton]
  exact marks.last_greater last trails

/-- Where the last nonterminal of a form is after a rightmost step: within the
body that the step wrote, or before it. -/
theorem lastNonterminal_after_step
    {before body after left right : List Symbol} {head : Symbol}
    (nonterminal : head.isNonterminal = true) (settled : Settled after)
    (same : before ++ body ++ after = left ++ head :: right) :
    (∃ front back, left = before ++ front ∧ body = front ++ head :: back ∧
        right = back ++ after) ∨
      ∃ gap, before = left ++ head :: gap ∧ right = gap ++ body ++ after := by
  rcases List.append_eq_append_iff.mp same with ⟨rest, _, inAfter⟩ | ⟨rest, inFront, tail⟩
  · have member : head ∈ after := by simp [inAfter]
    exact absurd member (settled.not_mem nonterminal)
  · cases rest with
    | nil =>
        have isAfter : head :: right = after := tail
        exact absurd (isAfter ▸ List.mem_cons_self) (settled.not_mem nonterminal)
    | cons first between =>
        obtain ⟨rfl, rfl⟩ := List.cons.inj tail
        rcases List.append_eq_append_iff.mp inFront with
          ⟨front, isLeft, isBody⟩ | ⟨gap, isBefore, isBody⟩
        · exact Or.inl ⟨front, between, isLeft, isBody, rfl⟩
        · cases gap with
          | nil =>
              refine Or.inl ⟨[], between, ?_, isBody.symm, rfl⟩
              simpa using isBefore.symm
          | cons first gap =>
              obtain ⟨rfl, rfl⟩ := List.cons.inj isBody
              exact Or.inr ⟨gap, isBefore, rfl⟩

theorem Expandable.inside_body
    {before after front back : List Symbol} {production : Production} {head : Symbol}
    (expandable : grammar.Expandable before production.head after)
    (member : production ∈ grammar.productions)
    (split : production.body = front ++ head :: back) (settled : Settled back) :
    grammar.Expandable (before ++ front) head (back ++ after) := by
  have marks := expandable.handleMarks member
  refine ⟨?_, ?_⟩
  · have whole := marks.shifts
    have regrouped : before ++ production.body = (before ++ front ++ [head]) ++ back := by
      simp [split]
    rw [regrouped] at whole
    exact (Symbol.isChain_startMarker_append_iff.mp whole).1
  · intro last ends
    cases back with
    | nil =>
        have trails : production.body.getLast? = some head := by simp [split]
        exact expandable.ends_greater last ((reaches_of_getLast? member trails).trans ends)
    | cons next back =>
        have adjacent : grammar.Adjacent head next := ⟨production, member, front, back, split⟩
        have terminal : next.isTerminal = true := settled next (by simp)
        exact Shifts.greater_of_reaches (Or.inr adjacent) terminal ends

theorem Expandable.before_body
    {left gap after : List Symbol} {production : Production} {head : Symbol}
    (expandable : grammar.Expandable (left ++ head :: gap) production.head after)
    (member : production ∈ grammar.productions)
    (settled : Settled (gap ++ production.body)) :
    grammar.Expandable left head (gap ++ production.body ++ after) := by
  have marks := expandable.handleMarks member
  have whole := marks.shifts
  have regrouped : left ++ head :: gap ++ production.body =
      (left ++ [head]) ++ (gap ++ production.body) := by
    simp
  rw [regrouped] at whole
  obtain ⟨upToHead, _, meets⟩ := Symbol.isChain_startMarker_append_iff.mp whole
  refine ⟨upToHead, ?_⟩
  intro last ends
  have nonempty : gap ++ production.body ≠ [] :=
    List.append_ne_nil_of_right_ne_nil gap (body_ne_nil member)
  have leads := List.head?_eq_some_head nonempty
  have shifts := meets _ leads
  rw [Symbol.lastOf_append_singleton] at shifts
  rw [Symbol.firstOf_append leads]
  exact shifts.greater_of_reaches (settled _ (List.head_mem nonempty)) ends

theorem expandable_start (grammar : Grammar) : grammar.Expandable [] grammar.start [] := by
  refine ⟨?_, ?_⟩
  · apply List.isChain_pair.mpr
    exact Or.inl grammar.less_startMarker_start
  · intro last ends
    exact Or.inr ⟨rfl, Or.inr ends⟩

/-- Rightmost steps keep the relations around the last nonterminal. -/
theorem expandable_of_derivesRightmost
    {form : List Symbol} (derivation : grammar.DerivesRightmost [grammar.start] form) :
    ∀ before head after, form = before ++ head :: after → head.isNonterminal = true →
      Settled after → grammar.Expandable before head after := by
  induction derivation with
  | refl =>
      intro before head after same _ _
      cases before with
      | nil =>
          cases same
          exact grammar.expandable_start
      | cons first before =>
          have length := congrArg List.length same
          simp at length
  | tail _ rewrite induction =>
      obtain ⟨before, after, production, member, settled⟩ := rewrite
      have nonterminal := (grammar.wellFormed production member).head_isNonterminal
      have expandable := induction before production.head after rfl nonterminal settled
      intro left head right same headNonterminal rightSettled
      rcases lastNonterminal_after_step headNonterminal settled same with
        ⟨front, back, rfl, split, rfl⟩ | ⟨gap, rfl, rfl⟩
      · exact expandable.inside_body member split (Symbol.settled_append_iff.mp rightSettled).1
      · exact expandable.before_body member (Symbol.settled_append_iff.mp rightSettled).1

theorem handleMarks_of_derivesRightmost
    {before after : List Symbol} {production : Production}
    (derivation : grammar.DerivesRightmost [grammar.start] (before ++ production.head :: after))
    (member : production ∈ grammar.productions) (settled : Settled after) :
    grammar.HandleMarks before production after := by
  have nonterminal := (grammar.wellFormed production member).head_isNonterminal
  have expandable := expandable_of_derivesRightmost derivation before production.head after rfl
    nonterminal settled
  exact expandable.handleMarks member

/-- The relations of a grammar's own table around the handle of any form that
is derived from the start symbol. -/
theorem table_relations_around_handle
    {before after : List Symbol} {production : Production}
    (derivation : grammar.DerivesRightmost [grammar.start] (before ++ production.head :: after))
    (member : production ∈ grammar.productions) (settled : Settled after) :
    let table := Table.ofGrammar grammar
    (Symbol.startMarker :: before).IsChain
        (fun left right => (table.relation left right).shifts = true) ∧
      (table.relation (lastOf before) production.head).shifts = true ∧
      (table.relation (lastOf before) (production.body.head (body_ne_nil member))).less = true ∧
      production.body.IsChain (fun left right => (table.relation left right).equal = true) ∧
      (table.relation (production.body.getLast (body_ne_nil member)) (firstOf after)).greater =
        true := by
  intro table
  have marks := handleMarks_of_derivesRightmost derivation member settled
  refine ⟨?_, ?_, ?_, ?_, ?_⟩
  · exact marks.before_shifts.imp fun _ _ => Table.shifts_ofGrammar_iff.mpr
  · exact Table.shifts_ofGrammar_iff.mpr marks.head_shifts
  · exact Table.less_ofGrammar_iff.mpr (marks.first_less _ (List.head?_eq_some_head _))
  · exact marks.body_adjacent.imp fun _ _ => Table.equal_ofGrammar_iff.mpr
  · exact Table.greater_ofGrammar_iff.mpr
      (marks.last_greater _ (List.getLast?_eq_some_getLast _))

theorem sums_relations_around_product :
    let table := Table.ofGrammar sums
    (table.relation (.terminal '+') (.nonterminal 'T')).shifts = true ∧
      (table.relation (.terminal '+') (.terminal 'a')).less = true ∧
      (table.relation (.terminal 'a') (.terminal '*')).greater = true := by
  have derivation : sums.DerivesRightmost [sums.start]
      ([.nonterminal 'E', .terminal '+'] ++
        (Production.mk (.nonterminal 'T') [.terminal 'a']).head ::
          [.terminal '*', .terminal 'a']) :=
    sums_rightmostDerivation.derivesRightmost_of_mem (by decide)
  obtain ⟨_, headShifts, firstLess, _, lastGreater⟩ :=
    table_relations_around_handle derivation (by decide) (by decide)
  exact ⟨headShifts, firstLess, lastGreater⟩

end Grammar

end PrecedenceGrammar
