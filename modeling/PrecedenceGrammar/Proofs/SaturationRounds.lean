import Mathlib.Order.Nat
import PrecedenceGrammar.Proofs.DerivedEnds
import PrecedenceGrammar.Proofs.RightmostDerivations

/-!
# The rounds of a saturation

After each round a saturation holds the symbols that so many applications of
productions, and one more, can bring to its side.  The round that adds nothing
is counted as well, so the rounds are as many as the applications that the
farthest symbol needs.
-/

namespace PrecedenceGrammar

/-- The step, taken as often as counted, leads from the origin to a target. -/
inductive Repeated {α : Type} (step : α → α → Prop) (origin : α) : Nat → α → Prop where
  | none : Repeated step origin 0 origin
  | next {count : Nat} {middle target : α} (earlier : Repeated step origin count middle)
      (last : step middle target) : Repeated step origin (count + 1) target

namespace Grammar

variable {grammar : Grammar} {side : Side} {symbol found : Symbol} {members : List Symbol}
  {count passed : Nat}

/-- So many applications of productions, at least one and wherever they are,
lead from one symbol to a form with the other at the side. -/
def Brings (grammar : Grammar) (side : Side) (symbol found : Symbol) (count : Nat) : Prop :=
  0 < count ∧ ∃ form, Repeated grammar.Rewrites [symbol] count form ∧
    side.symbolOf? form = some found

/-- Rounds of saturation from the given members, as many as there are. -/
inductive Saturates (grammar : Grammar) (side : Side) : List Symbol → Saturation → Prop where
  | done {members : List Symbol} (none_new : grammar.newEnds side members = []) :
      Saturates grammar side members ⟨members, 1⟩
  | round {members : List Symbol} {later : Saturation}
      (some_new : grammar.newEnds side members ≠ [])
      (continues : Saturates grammar side (members ++ grammar.newEnds side members) later) :
      Saturates grammar side members ⟨later.members, later.rounds + 1⟩

/-- The limit on the rounds is never reached, because every round but the last
adds a symbol of the grammar. -/
theorem saturates_saturationFrom
    (allowed : Nat) (distinct : members.Nodup) (known : members ⊆ grammar.symbols)
    (enough : grammar.symbols.length < allowed + members.length) :
    grammar.Saturates side members (grammar.saturationFrom side allowed members) := by
  induction allowed generalizing members with
  | zero =>
      have bounded := distinct.length_le_of_subset known
      omega
  | succ allowed induction =>
      rw [saturationFrom]
      split
      · next none_new => exact .done none_new
      · next some_new =>
        have grows := length_lt_append_newEnds some_new
        have stillEnough : grammar.symbols.length <
            allowed + (members ++ grammar.newEnds side members).length := by
          omega
        exact .round some_new (induction (nodup_append_newEnds distinct)
          (append_newEnds_subset_symbols known) stillEnough)

theorem Saturates.rounds_le
    {saturation : Saturation} (saturates : grammar.Saturates side members saturation)
    (distinct : members.Nodup) (known : members ⊆ grammar.symbols) :
    saturation.rounds + members.length ≤ grammar.symbols.length + 1 := by
  induction saturates with
  | done =>
      have bounded := distinct.length_le_of_subset known
      dsimp only
      omega
  | @round members later some_new _ induction =>
      have grows := length_lt_append_newEnds some_new
      have rest := induction (nodup_append_newEnds distinct) (append_newEnds_subset_symbols known)
      dsimp only
      omega

/-- The members after some rounds: what as many applications to the symbol at
the side, and one more, can put there. -/
def Generation (grammar : Grammar) (side : Side) (symbol : Symbol) (passed : Nat)
    (members : List Symbol) : Prop :=
  ∀ found, found ∈ members ↔
    ∃ count ≤ passed, Repeated (grammar.Exposes side) symbol (count + 1) found

/-- The least number of applications to the symbol at the side that put the
other there. -/
def Distance (grammar : Grammar) (side : Side) (symbol found : Symbol) (count : Nat) : Prop :=
  IsLeast {count | 0 < count ∧ Repeated (grammar.Exposes side) symbol count found} count

theorem generation_ends (grammar : Grammar) (side : Side) (symbol : Symbol) :
    grammar.Generation side symbol 0 (grammar.ends side symbol).eraseDups := by
  intro found
  rw [List.mem_eraseDups]
  constructor
  · intro exposed
    exact ⟨0, Nat.le_refl 0, .next .none exposed⟩
  · intro reached
    obtain ⟨count, bounded, path⟩ := reached
    obtain rfl := Nat.le_zero.mp bounded
    cases path with
    | next earlier last =>
        cases earlier with
        | none => exact last

theorem Generation.mem_newEnds
    (generation : grammar.Generation side symbol passed members)
    (path : Repeated (grammar.Exposes side) symbol (passed + 2) found) (absent : found ∉ members) :
    found ∈ grammar.newEnds side members := by
  cases path with
  | @next _ middle _ earlier last =>
      have member : middle ∈ members := (generation middle).mpr ⟨passed, Nat.le_refl _, earlier⟩
      exact (grammar.mem_newEnds_iff side members found).mpr ⟨⟨middle, member, last⟩, absent⟩

theorem Generation.exists_path
    (generation : grammar.Generation side symbol passed members)
    (new : found ∈ grammar.newEnds side members) :
    ∃ count ≤ passed + 1, Repeated (grammar.Exposes side) symbol (count + 1) found := by
  obtain ⟨⟨middle, member, exposed⟩, _⟩ := (grammar.mem_newEnds_iff side members found).mp new
  obtain ⟨count, bounded, path⟩ := (generation middle).mp member
  exact ⟨count + 1, Nat.succ_le_succ bounded, .next path exposed⟩

/-- A round leads from one generation to the next. -/
theorem Generation.grow
    (generation : grammar.Generation side symbol passed members) :
    grammar.Generation side symbol (passed + 1) (members ++ grammar.newEnds side members) := by
  intro found
  rw [List.mem_append]
  constructor
  · intro member
    rcases member with old | new
    · obtain ⟨count, bounded, path⟩ := (generation found).mp old
      exact ⟨count, Nat.le_succ_of_le bounded, path⟩
    · exact generation.exists_path new
  · intro reached
    obtain ⟨count, bounded, path⟩ := reached
    by_cases old : found ∈ members
    · exact Or.inl old
    · rcases Nat.le_succ_iff.mp bounded with earlier | rfl
      · exact absurd ((generation found).mpr ⟨count, earlier, path⟩) old
      · exact Or.inr (generation.mem_newEnds path old)

/-- What a round adds is one application farther away than its members can be. -/
theorem Generation.distance_of_mem_newEnds
    (generation : grammar.Generation side symbol passed members)
    (new : found ∈ grammar.newEnds side members) :
    grammar.Distance side symbol found (passed + 2) := by
  have absent := ((grammar.mem_newEnds_iff side members found).mp new).2
  have farther : ∀ count, Repeated (grammar.Exposes side) symbol (count + 1) found →
      passed < count := by
    intro count path
    by_contra bounded
    exact absent ((generation found).mpr ⟨count, Nat.le_of_not_lt bounded, path⟩)
  constructor
  · obtain ⟨count, bounded, path⟩ := generation.exists_path new
    obtain rfl : count = passed + 1 := Nat.le_antisymm bounded (farther count path)
    exact ⟨Nat.succ_pos _, path⟩
  · rintro count ⟨positive, path⟩
    cases count with
    | zero => cases positive
    | succ count => exact Nat.succ_le_succ (farther count path)

theorem Generation.distance_le
    (generation : grammar.Generation side symbol passed members) (member : found ∈ members)
    (distance : grammar.Distance side symbol found count) :
    count ≤ passed + 1 := by
  obtain ⟨shorter, bounded, path⟩ := (generation found).mp member
  exact (distance.2 ⟨Nat.succ_pos shorter, path⟩).trans (Nat.succ_le_succ bounded)

/-- The last round confirms the generation that the round before it, or the
start, left with a symbol as far away as can be. -/
theorem Saturates.isGreatest_rounds
    {saturation : Saturation} (saturates : grammar.Saturates side members saturation)
    (generation : grammar.Generation side symbol passed members)
    (farthest : ∃ found ∈ members, grammar.Distance side symbol found (passed + 1)) :
    IsGreatest {count | ∃ found ∈ saturation.members, grammar.Distance side symbol found count}
      (passed + saturation.rounds) := by
  induction saturates generalizing passed with
  | done =>
      refine ⟨farthest, ?_⟩
      rintro count ⟨found, member, distance⟩
      exact generation.distance_le member distance
  | @round members later some_new _ induction =>
      obtain ⟨found, new⟩ := List.exists_mem_of_ne_nil _ some_new
      have distance := generation.distance_of_mem_newEnds new
      have rest := induction generation.grow ⟨found, List.mem_append_right _ new, distance⟩
      rw [Nat.add_right_comm passed 1, Nat.add_assoc] at rest
      exact rest

theorem exists_derivation_of_path
    (path : Repeated (grammar.Exposes side) symbol count found) :
    ∃ form, Repeated grammar.Rewrites [symbol] count form ∧ side.symbolOf? form = some found := by
  induction path with
  | none => exact ⟨[symbol], .none, side.symbolOf?_singleton symbol⟩
  | next _ last induction =>
      obtain ⟨middle, derivation, atMiddle⟩ := induction
      obtain ⟨form, rewrite, atForm⟩ := last.exists_rewrites atMiddle
      exact ⟨form, .next derivation rewrite, atForm⟩

/-- The applications elsewhere in a form can be left out. -/
theorem exists_path_of_derivation
    {form : List Symbol} (derivation : Repeated grammar.Rewrites [symbol] count form)
    (positive : 0 < count) (atForm : side.symbolOf? form = some found) :
    ∃ shorter ≤ count, 0 < shorter ∧ Repeated (grammar.Exposes side) symbol shorter found := by
  induction derivation generalizing found with
  | none => cases positive
  | @next count middle form earlier last induction =>
      rcases Nat.eq_zero_or_pos count with rfl | some_earlier
      · cases earlier
        have exposed : grammar.Exposes side symbol found :=
          exposes_iff.mpr ⟨form, last.mem_productions, atForm⟩
        exact ⟨1, Nat.le_refl 1, Nat.one_pos, .next .none exposed⟩
      · obtain ⟨before, atMiddle⟩ := side.exists_symbolOf? last.origin_ne_nil
        obtain ⟨shorter, bounded, some_steps, path⟩ := induction some_earlier atMiddle
        obtain ⟨after, same, moved⟩ := last.exists_symbolOf? atMiddle
        obtain rfl : after = found := Option.some.inj (same.symm.trans atForm)
        cases moved with
        | refl => exact ⟨shorter, Nat.le_succ_of_le bounded, some_steps, path⟩
        | single exposed =>
            exact ⟨shorter + 1, Nat.succ_le_succ bounded, Nat.succ_pos _, .next path exposed⟩

/-- As few applications to the symbol at the side are enough as there are in any
derivation. -/
theorem isLeast_brings_iff :
    IsLeast {count | grammar.Brings side symbol found count} count ↔
      grammar.Distance side symbol found count := by
  constructor
  · rintro ⟨⟨positive, form, derivation, atForm⟩, least⟩
    obtain ⟨shorter, bounded, some_steps, path⟩ :=
      exists_path_of_derivation derivation positive atForm
    have enough := least ⟨some_steps, exists_derivation_of_path path⟩
    obtain rfl : shorter = count := Nat.le_antisymm bounded enough
    refine ⟨⟨positive, path⟩, ?_⟩
    rintro other ⟨some_others, otherPath⟩
    exact least ⟨some_others, exists_derivation_of_path otherPath⟩
  · rintro ⟨⟨positive, path⟩, least⟩
    refine ⟨⟨positive, exists_derivation_of_path path⟩, ?_⟩
    rintro other ⟨some_others, form, derivation, atForm⟩
    obtain ⟨shorter, bounded, some_steps, otherPath⟩ :=
      exists_path_of_derivation derivation some_others atForm
    exact (least ⟨some_steps, otherPath⟩).trans bounded

theorem Reaches.exists_distance
    (reached : grammar.Reaches side symbol found) :
    ∃ count, grammar.Distance side symbol found count := by
  have some_path : ∃ count, 0 < count ∧ Repeated (grammar.Exposes side) symbol count found := by
    induction reached with
    | single exposed => exact ⟨1, Nat.one_pos, .next .none exposed⟩
    | tail _ exposed induction =>
        obtain ⟨count, _, path⟩ := induction
        exact ⟨count + 1, Nat.succ_pos count, .next path exposed⟩
  classical
  exact ⟨Nat.find some_path, Nat.isLeast_find some_path⟩

theorem exists_exposes
    (isDefined : grammar.isDefined symbol = true) (side : Side) :
    ∃ found, grammar.Exposes side symbol found := by
  obtain ⟨production, member, rfl⟩ := (grammar.isDefined_iff symbol).mp isDefined
  obtain ⟨found, atSide⟩ := side.exists_symbolOf? (body_ne_nil member)
  exact ⟨found, exposes_iff.mpr ⟨production.body, member, atSide⟩⟩

/-- A saturation takes as many rounds as the symbol that is brought to the side
with the most applications needs at least, and never more than there are
symbols. -/
theorem saturation_rounds
    (grammar : Grammar) (side : Side) {symbol : Symbol}
    (isDefined : grammar.isDefined symbol = true) :
    let saturation := grammar.saturation side symbol
    grammar.Saturates side (grammar.ends side symbol).eraseDups saturation ∧
      (∀ found ∈ saturation.members,
        ∃ count, IsLeast {count | grammar.Brings side symbol found count} count) ∧
      IsGreatest {greatest | ∃ found ∈ saturation.members,
        IsLeast {count | grammar.Brings side symbol found count} greatest} saturation.rounds ∧
      saturation.rounds ≤ grammar.symbols.length := by
  intro saturation
  obtain ⟨nearest, exposed⟩ := exists_exposes isDefined side
  have started : nearest ∈ (grammar.ends side symbol).eraseDups := List.mem_eraseDups.mpr exposed
  have some_members := List.length_pos_of_mem started
  have distinct : (grammar.ends side symbol).eraseDups.Nodup := nodup_eraseDups _
  have known := grammar.eraseDups_ends_subset_symbols side symbol
  have saturates : grammar.Saturates side (grammar.ends side symbol).eraseDups saturation :=
    saturates_saturationFrom _ distinct known (by omega)
  simp only [isLeast_brings_iff]
  refine ⟨saturates, ?_, ?_, ?_⟩
  · intro found member
    exact (mem_saturation_iff.mp member).exists_distance
  · have nearby : grammar.Distance side symbol nearest 1 := by
      refine ⟨⟨Nat.one_pos, .next .none exposed⟩, ?_⟩
      rintro count ⟨positive, _⟩
      exact positive
    have greatest := saturates.isGreatest_rounds (grammar.generation_ends side symbol)
      ⟨nearest, started, nearby⟩
    rw [Nat.zero_add] at greatest
    exact greatest
  · have bounded := saturates.rounds_le distinct known
    omega

/-- Of what sums begin with, the letter is two applications away. -/
theorem sums_saturation_rounds :
    sums.isDefined (.nonterminal 'E') = true ∧
      IsGreatest {greatest | ∃ found ∈ [.nonterminal 'E', .nonterminal 'T', .terminal 'a'],
        IsLeast {count | sums.Brings .leading (.nonterminal 'E') found count} greatest} 2 ∧
      2 ≤ sums.symbols.length := by
  have isDefined : sums.isDefined (.nonterminal 'E') = true := by decide
  have saturation_eq : sums.saturation .leading (.nonterminal 'E') =
      ⟨[.nonterminal 'E', .nonterminal 'T', .terminal 'a'], 2⟩ := by
    decide
  obtain ⟨_, _, greatest, bounded⟩ := saturation_rounds sums .leading isDefined
  rw [saturation_eq] at greatest bounded
  exact ⟨isDefined, greatest, bounded⟩

end Grammar

end PrecedenceGrammar
