import PrecedenceGrammar.Proofs.ParserSoundness

/-!
# Runs that come to an end

Only reductions of one symbol to its head can go on for ever, and only when
some symbol comes back to itself by them.  Where none does, every move lowers a
number that is made of what is unread, of the height of the stack, and of the
heads that the symbol on top can still become.
-/

namespace PrecedenceGrammar

namespace Grammar

/-- What a reduction of the symbol alone makes of it. -/
def Becomes (grammar : Grammar) (symbol head : Symbol) : Prop :=
  grammar.headOf? [symbol] = some head

/-- No symbol comes back to itself by reductions of one symbol. -/
def UnitAcyclic (grammar : Grammar) : Prop :=
  ∀ symbol, ¬ Relation.TransGen grammar.Becomes symbol symbol

open Classical in
/-- The heads that a symbol comes to by reductions of one symbol. -/
noncomputable def laterHeads (grammar : Grammar) (symbol : Symbol) : List Symbol :=
  grammar.heads.filter fun head => Relation.TransGen grammar.Becomes symbol head

variable {grammar : Grammar} {symbol head : Symbol}

theorem mem_laterHeads_iff :
    head ∈ grammar.laterHeads symbol ↔ Relation.TransGen grammar.Becomes symbol head := by
  simp only [laterHeads, List.mem_filter, decide_eq_true_eq, and_iff_right_iff_imp]
  intro path
  obtain ⟨_, _, last⟩ := Relation.TransGen.tail'_iff.mp path
  exact grammar.mem_heads_of_headOf? last

theorem length_laterHeads_le (grammar : Grammar) (symbol : Symbol) :
    (grammar.laterHeads symbol).length ≤ grammar.heads.length :=
  List.length_filter_le _ _

/-- A symbol has more heads to come than what it becomes. -/
theorem UnitAcyclic.length_laterHeads_lt
    (acyclic : grammar.UnitAcyclic) (becomes : grammar.Becomes symbol head) :
    (grammar.laterHeads head).length < (grammar.laterHeads symbol).length := by
  have new : head ∉ grammar.laterHeads head := by
    intro member
    exact acyclic head (mem_laterHeads_iff.mp member)
  have distinct : (head :: grammar.laterHeads head).Nodup := by
    refine List.nodup_cons.mpr ⟨new, ?_⟩
    exact (nodup_eraseDups _).filter _
  have within : head :: grammar.laterHeads head ⊆ grammar.laterHeads symbol := by
    refine List.cons_subset.mpr ⟨mem_laterHeads_iff.mpr (.single becomes), ?_⟩
    intro other member
    exact mem_laterHeads_iff.mpr (.head becomes (mem_laterHeads_iff.mp member))
  exact distinct.length_le_of_subset within

/-- It is enough that some weight falls with each such reduction. -/
theorem unitAcyclic_of_falls
    (weight : Symbol → Nat)
    (falls : ∀ symbol head, grammar.Becomes symbol head → weight head < weight symbol) :
    grammar.UnitAcyclic := by
  have lower : ∀ symbol head, Relation.TransGen grammar.Becomes symbol head →
      weight head < weight symbol := by
    intro symbol head path
    induction path with
    | single becomes => exact falls _ _ becomes
    | tail _ becomes induction => exact (falls _ _ becomes).trans induction
  intro symbol cycle
  exact Nat.lt_irrefl _ (lower symbol symbol cycle)

end Grammar

namespace Configuration

variable {grammar : Grammar} {table : Table}

/-- The potential, each unit of it worth more than all heads together, and the
heads that the top symbol can still become. -/
noncomputable def ranking (grammar : Grammar) (configuration : Configuration) : Nat :=
  configuration.potential * (grammar.heads.length + 1) +
    (grammar.laterHeads configuration.stack.top).length

private theorem ranking_lt_of_lower_potential
    {configuration next : Configuration} (falls : next.potential + 1 ≤ configuration.potential) :
    next.ranking grammar < configuration.ranking grammar := by
  have scaled := Nat.mul_le_mul_right (grammar.heads.length + 1) falls
  have bounded := grammar.length_laterHeads_le next.stack.top
  rw [Nat.add_mul] at scaled
  unfold ranking
  omega

theorem Moves.ranking_lt
    {configuration next : Configuration} {action : Action} (acyclic : grammar.UnitAcyclic)
    (moves : Moves grammar table configuration action next) (unfinished : next.Unfinished) :
    next.ranking grammar < configuration.ranking grammar := by
  cases action with
  | shift symbol =>
      exact ranking_lt_of_lower_potential (Nat.le_of_eq (moves.shift_potential unfinished))
  | reduce body head =>
      obtain ⟨isBody, falls | ⟨level, rfl, rfl⟩⟩ := moves.reduce_potential
      · exact ranking_lt_of_lower_potential falls
      · have fewer := acyclic.length_laterHeads_lt isBody
        rw [ranking, ranking, level]
        exact Nat.add_lt_add_left fewer _

/-- A run without a limit ends, whatever configuration it starts in. -/
theorem exists_runsTo
    {configuration : Configuration} (acyclic : grammar.UnitAcyclic)
    (unshifted : ∀ left, (table.relation left .endMarker).shifts = false)
    (unfinished : configuration.Unfinished) :
    ∃ moves ending, RunsTo grammar table configuration moves ending := by
  induction rank_eq : configuration.ranking grammar using Nat.strong_induction_on
    generalizing configuration with
  | _ rank induction =>
      cases step : configuration.step grammar table with
      | halted ending => exact ⟨[], ending, .halted step⟩
      | moved action next =>
          have moves := step_eq_moved_iff.mp step
          have nextUnfinished := moves.unfinished unshifted unfinished
          have lower := moves.ranking_lt acyclic nextUnfinished
          rw [rank_eq] at lower
          obtain ⟨later, ending, runs⟩ := induction _ lower nextUnfinished rfl
          exact ⟨⟨action, next⟩ :: later, ending, .moved moves runs⟩

theorem Halts.ne_endless
    {configuration : Configuration} {ending : Ending}
    (halts : Halts grammar table configuration ending) :
    ending ≠ .endless := by
  intro isEndless
  cases halts with
  | @stuck _ _ _ reduction _ _ _ _ ends =>
      subst isEndless
      cases reduction <;> cases ends
  | _ => cases isEndless

end Configuration

theorem Run.trace_of_ending_ne_endless
    {run : Run} (ended : run.ending ≠ .endless) :
    (∃ trace, run.trace = .ok trace ∧ trace.lines.length ≤ run.moves.length + 2) ∨
      ∃ basis, run.trace = .error (.noSuchRule basis) := by
  have count := run.length_lines
  have bounded (last : Text) : (run.lines ++ [last]).length ≤ run.moves.length + 2 := by
    rw [List.length_append, List.length_singleton, count]
  unfold trace
  cases ending : run.ending with
  | inputExhausted => exact Or.inl ⟨_, rfl, Nat.le_succ_of_le (Nat.le_of_eq count)⟩
  | noSuchRule basis => exact Or.inr ⟨basis, rfl⟩
  | endless => exact absurd ending ended
  | _ => exact Or.inl ⟨_, rfl, bounded _⟩

namespace Grammar

/-- Where no symbol comes back to itself by reductions of one symbol, parsing
ends with any table and on any symbols, and the trace is short: two lines for
the border, and twice for each symbol one line and one for each head. -/
theorem parse_terminates
    (grammar other : Grammar) (symbols : List Symbol) (acyclic : grammar.UnitAcyclic) :
    let table := Table.ofGrammar other
    let bound := 2 * symbols.length * (grammar.heads.length + 1)
    (∃ moves ending, (Configuration.initial symbols).RunsTo grammar table moves ending ∧
        moves.length ≤ bound) ∧
      ((∃ trace, grammar.parse table symbols = .ok trace ∧ trace.lines.length ≤ bound + 2) ∨
        ∃ basis, grammar.parse table symbols = .error (.noSuchRule basis)) := by
  intro table bound
  have unshifted := Table.shifts_endMarker other
  obtain ⟨moves, ending, runs⟩ := Configuration.exists_runsTo acyclic unshifted
    (Configuration.unfinished_initial symbols)
  have short : moves.length ≤ bound := runs.initial_length_le unshifted
  refine ⟨⟨moves, ending, runs, short⟩, ?_⟩
  have ended : (grammar.run table symbols).ending ≠ .endless := by
    rw [run_eq_of_runsTo unshifted runs]
    exact runs.halts_final.ne_endless
  rcases Run.trace_of_ending_ne_endless ended with ⟨trace, shown, counted⟩ | refused
  · left
    rw [run_eq_of_runsTo unshifted runs] at counted
    exact ⟨trace, shown, counted.trans (Nat.add_le_add_right short 2)⟩
  · exact Or.inr refused

theorem sums_unitAcyclic : sums.UnitAcyclic := by
  refine unitAcyclic_of_falls
    (fun symbol => if symbol.isTerminal then 2 else if symbol = .nonterminal 'T' then 1 else 0) ?_
  intro symbol head becomes
  have member := mem_productions_of_headOf? becomes
  have units : head = .nonterminal 'E' ∧ symbol = .nonterminal 'T' ∨
      head = .nonterminal 'T' ∧ symbol = .terminal 'a' := by
    simpa [sums] using member
  rcases units with ⟨rfl, rfl⟩ | ⟨rfl, rfl⟩
  · decide
  · decide

/-- A product that the table of the products leads to a symbol which is not the
start of the sums. -/
theorem sums_parse_terminates :
    sums.UnitAcyclic ∧
      ∃ trace, sums.parse (Table.ofGrammar products) (Symbol.terminals ['a', '*', 'a']) =
          .ok trace ∧ trace.outcome = .rejected ∧ trace.lines.length ≤ 20 := by
  have parsed : sums.parse (Table.ofGrammar products) (Symbol.terminals ['a', '*', 'a']) =
      .ok ⟨[['^', ' ', 'a', '*', 'a', '$'], ['^', 'a', ' ', '*', 'a', '$'],
        ['^', 'T', ' ', '*', 'a', '$'], ['^', 'T', '*', ' ', 'a', '$'],
        ['^', 'T', '*', 'a', ' ', '$'], ['^', 'T', ' ', '$'], rejectionLine], .rejected⟩ := by
    decide +kernel
  obtain ⟨_, ⟨trace, shown, counted⟩ | ⟨basis, refused⟩⟩ := parse_terminates sums products
    (Symbol.terminals ['a', '*', 'a']) sums_unitAcyclic
  · have same : ⟨_, .rejected⟩ = trace := Except.ok.inj (parsed.symm.trans shown)
    exact ⟨sums_unitAcyclic, trace, shown, by rw [← same], counted⟩
  · rw [parsed] at refused
    cases refused

end Grammar

end PrecedenceGrammar
