import Mathlib.Logic.Relation
import PrecedenceGrammar.EndSets
import PrecedenceGrammar.Proofs.GrammarViews

/-!
# Saturated ends

A saturation holds exactly the symbols that one or more applications of
productions bring to its side.  The rounds that it is allowed are enough,
because every round but the last adds a symbol of the grammar.
-/

namespace PrecedenceGrammar

namespace Grammar

/-- One application of a production to a symbol puts another at a side. -/
def Exposes (grammar : Grammar) (side : Side) (symbol found : Symbol) : Prop :=
  found ∈ grammar.ends side symbol

/-- One or more applications do, each to the symbol that is at the side. -/
def Reaches (grammar : Grammar) (side : Side) : Symbol → Symbol → Prop :=
  Relation.TransGen (grammar.Exposes side)

/-- No application brings anything new to the side. -/
def Saturated (grammar : Grammar) (side : Side) (members : List Symbol) : Prop :=
  ∀ member ∈ members, ∀ found, grammar.Exposes side member found → found ∈ members

variable {grammar : Grammar} {side : Side}

theorem exposes_iff
    {symbol found : Symbol} :
    grammar.Exposes side symbol found ↔
      ∃ body, ⟨symbol, body⟩ ∈ grammar.productions ∧ side.symbolOf? body = some found :=
  grammar.mem_ends_iff side symbol found

theorem mem_body_of_symbolOf?
    {body : List Symbol} {found : Symbol}
    (exposed : side.symbolOf? body = some found) :
    found ∈ body := by
  cases side with
  | leading => exact List.mem_of_head? exposed
  | trailing => exact List.mem_of_getLast? exposed

theorem Exposes.mem_symbols
    {symbol found : Symbol}
    (exposed : grammar.Exposes side symbol found) :
    found ∈ grammar.symbols := by
  obtain ⟨body, member, atSide⟩ := exposes_iff.mp exposed
  apply (mem_symbols_iff _ _).mpr
  exact ⟨⟨symbol, body⟩, member, Or.inr (mem_body_of_symbolOf? atSide)⟩

theorem Reaches.mem_symbols
    {symbol found : Symbol}
    (reached : grammar.Reaches side symbol found) :
    found ∈ grammar.symbols := by
  cases reached with
  | single exposed => exact exposed.mem_symbols
  | tail _ exposed => exact exposed.mem_symbols

theorem Reaches.isHead
    {symbol found : Symbol}
    (reached : grammar.Reaches side symbol found) :
    ∃ production ∈ grammar.productions, production.head = symbol := by
  obtain ⟨next, exposed, _⟩ := Relation.TransGen.head'_iff.mp reached
  obtain ⟨body, member, _⟩ := exposes_iff.mp exposed
  exact ⟨⟨symbol, body⟩, member, rfl⟩

theorem mem_saturationFrom_of_mem
    {members : List Symbol} {found : Symbol} (allowed : Nat)
    (member : found ∈ members) :
    found ∈ (grammar.saturationFrom side allowed members).members := by
  induction allowed generalizing members with
  | zero => exact member
  | succ allowed induction =>
      rw [saturationFrom]
      split
      · exact member
      · apply induction
        exact List.mem_append_left _ member

/-- Whatever a saturation holds, it reached from where it started. -/
theorem reached_of_mem_saturationFrom
    {members : List Symbol} {found : Symbol} (allowed : Nat)
    (member : found ∈ (grammar.saturationFrom side allowed members).members) :
    ∃ origin ∈ members, Relation.ReflTransGen (grammar.Exposes side) origin found := by
  induction allowed generalizing members with
  | zero => exact ⟨found, member, .refl⟩
  | succ allowed induction =>
      rw [saturationFrom] at member
      split at member
      · exact ⟨found, member, .refl⟩
      · obtain ⟨origin, inGrown, path⟩ := induction member
        rcases List.mem_append.mp inGrown with old | new
        · exact ⟨origin, old, path⟩
        · obtain ⟨⟨before, inMembers, exposed⟩, _⟩ :=
            (grammar.mem_newEnds_iff side members origin).mp new
          exact ⟨before, inMembers, .head exposed path⟩

theorem saturated_of_newEnds_eq_nil
    {members : List Symbol}
    (none_new : grammar.newEnds side members = []) :
    grammar.Saturated side members := by
  intro member inMembers found exposed
  by_contra absent
  have new : found ∈ grammar.newEnds side members :=
    (grammar.mem_newEnds_iff side members found).mpr
      ⟨⟨member, inMembers, exposed⟩, absent⟩
  rw [none_new] at new
  exact List.not_mem_nil new

theorem nodup_append_newEnds
    {members : List Symbol} (distinct : members.Nodup) :
    (members ++ grammar.newEnds side members).Nodup := by
  rw [List.nodup_append']
  refine ⟨distinct, nodup_eraseDups _, ?_⟩
  intro symbol old new
  exact ((grammar.mem_newEnds_iff side members symbol).mp new).2 old

theorem append_newEnds_subset_symbols
    {members : List Symbol} (known : members ⊆ grammar.symbols) :
    members ++ grammar.newEnds side members ⊆ grammar.symbols := by
  intro symbol member
  rcases List.mem_append.mp member with old | new
  · exact known old
  · obtain ⟨⟨_, _, exposed⟩, _⟩ := (grammar.mem_newEnds_iff side members symbol).mp new
    exact Exposes.mem_symbols exposed

theorem length_lt_append_newEnds
    {members : List Symbol} (some_new : grammar.newEnds side members ≠ []) :
    members.length < (members ++ grammar.newEnds side members).length := by
  rw [List.length_append]
  exact Nat.lt_add_of_pos_right (List.length_pos_iff.mpr some_new)

theorem eraseDups_ends_subset_symbols (grammar : Grammar) (side : Side) (symbol : Symbol) :
    (grammar.ends side symbol).eraseDups ⊆ grammar.symbols := by
  intro found member
  exact Exposes.mem_symbols (List.mem_eraseDups.mp member)

/-- Members that are as many as the symbols of the grammar are all of them. -/
theorem saturated_of_length_le
    {members : List Symbol} (distinct : members.Nodup)
    (known : members ⊆ grammar.symbols)
    (full : grammar.symbols.length ≤ members.length) :
    grammar.Saturated side members := by
  intro member _ found exposed
  by_contra absent
  have more : (found :: members).Nodup := List.nodup_cons.mpr ⟨absent, distinct⟩
  have fits : found :: members ⊆ grammar.symbols :=
    List.cons_subset.mpr ⟨exposed.mem_symbols, known⟩
  have bounded : (found :: members).length ≤ grammar.symbols.length :=
    more.length_le_of_subset fits
  rw [List.length_cons] at bounded
  omega

/-- Rounds for all the symbols that are not members yet are enough. -/
theorem saturated_saturationFrom
    {members : List Symbol} (allowed : Nat) (distinct : members.Nodup)
    (known : members ⊆ grammar.symbols)
    (enough : grammar.symbols.length ≤ allowed + members.length) :
    grammar.Saturated side (grammar.saturationFrom side allowed members).members := by
  induction allowed generalizing members with
  | zero =>
      have full : grammar.symbols.length ≤ members.length := by omega
      exact saturated_of_length_le distinct known full
  | succ allowed induction =>
      rw [saturationFrom]
      split
      · next none_new => exact saturated_of_newEnds_eq_nil none_new
      · next some_new =>
        have grows := length_lt_append_newEnds some_new
        have stillEnough : grammar.symbols.length ≤
            allowed + (members ++ grammar.newEnds side members).length := by
          omega
        exact induction (nodup_append_newEnds distinct)
          (append_newEnds_subset_symbols known) stillEnough

theorem Saturated.mem_of_path
    {members : List Symbol} {origin found : Symbol}
    (saturated : grammar.Saturated side members) (member : origin ∈ members)
    (path : Relation.ReflTransGen (grammar.Exposes side) origin found) :
    found ∈ members := by
  induction path with
  | refl => exact member
  | tail _ exposed induction => exact saturated _ induction _ exposed

theorem mem_saturation_iff
    {symbol found : Symbol} :
    found ∈ (grammar.saturation side symbol).members ↔
      grammar.Reaches side symbol found := by
  constructor
  · intro member
    obtain ⟨origin, first, path⟩ := reached_of_mem_saturationFrom _ member
    exact Relation.TransGen.head' (List.mem_eraseDups.mp first) path
  · intro reached
    obtain ⟨origin, exposed, path⟩ := Relation.TransGen.head'_iff.mp reached
    have known := grammar.eraseDups_ends_subset_symbols side symbol
    have saturated : grammar.Saturated side (grammar.saturation side symbol).members :=
      saturated_saturationFrom _ (nodup_eraseDups _) known (Nat.le_add_right _ _)
    have started : origin ∈ (grammar.saturation side symbol).members :=
      mem_saturationFrom_of_mem _ (List.mem_eraseDups.mpr exposed)
    exact saturated.mem_of_path started path

end Grammar

namespace EndSets

/-- FIRST and LAST hold exactly what the productions bring to either side. -/
theorem mem_derived_iff
    {grammar : Grammar} {side : Side} {symbol found : Symbol} :
    found ∈ (ofGrammar grammar).derived side symbol ↔
      grammar.Reaches side symbol found := by
  rw [derived]
  split
  · next entry chosen =>
    obtain ⟨head, _, rfl⟩ := List.mem_map.mp (List.mem_of_find?_eq_some chosen)
    have same : head = symbol := by simpa using List.find?_some chosen
    subst head
    cases side with
    | leading => exact Grammar.mem_saturation_iff
    | trailing => exact Grammar.mem_saturation_iff
  · next undefined =>
    constructor
    · intro member
      exact absurd member List.not_mem_nil
    · intro reached
      have isHead : symbol ∈ grammar.heads :=
        (grammar.mem_heads_iff symbol).mpr reached.isHead
      have different := List.find?_eq_none.mp undefined _ (List.mem_map_of_mem isHead)
      simp at different

end EndSets

end PrecedenceGrammar
