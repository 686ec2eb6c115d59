import PrecedenceGrammar.Proofs.ParserCompleteness
import PrecedenceGrammar.Proofs.VerdictStability

/-!
# The order of declaration

The parser looks at the start symbol, at the heads of bodies and at the cells of
its table, and at nothing else.  Where no two heads share a body, all of these
depend on which productions there are, not on their order or on how often one
is repeated.
-/

namespace PrecedenceGrammar

/-- All that the parser looks at is the same. -/
structure SameLookups (first second : Grammar) (table otherTable : Table) : Prop where
  start_eq : first.start = second.start
  headOf?_eq : ∀ body, first.headOf? body = second.headOf? body
  relation_eq : ∀ left right, table.relation left right = otherTable.relation left right

namespace SameLookups

variable {first second : Grammar} {table otherTable : Table}

theorem symm
    (same : SameLookups first second table otherTable) :
    SameLookups second first otherTable table where
  start_eq := same.start_eq.symm
  headOf?_eq body := (same.headOf?_eq body).symm
  relation_eq left right := (same.relation_eq left right).symm

theorem longestBody?_eq
    (same : SameLookups first second table otherTable) (basis : List Symbol) :
    first.longestBody? basis = second.longestBody? basis := by
  induction basis with
  | nil => rfl
  | cons symbol later induction =>
      rw [Grammar.longestBody?, Grammar.longestBody?, same.headOf?_eq, induction]

theorem reduce_eq
    (same : SameLookups first second table otherTable) (stack : Stack) :
    stack.reduce first table = stack.reduce second otherTable := by
  simp only [Stack.reduce, same.longestBody?_eq, same.relation_eq]

theorem step_eq
    (same : SameLookups first second table otherTable) (configuration : Configuration) :
    configuration.step first table = configuration.step second otherTable := by
  simp only [Configuration.step, same.relation_eq, same.start_eq, same.reduce_eq]

theorem run_eq
    (same : SameLookups first second table otherTable) (allowed : Nat)
    (configuration : Configuration) :
    configuration.run first table allowed = configuration.run second otherTable allowed := by
  induction allowed generalizing configuration with
  | zero => rfl
  | succ allowed induction =>
      rw [Configuration.run, Configuration.run, same.step_eq]
      cases configuration.step second otherTable with
      | halted ending => rfl
      | moved action next => simp only [induction next]

theorem runsTo
    {configuration : Configuration} {moves : List Move} {ending : Ending}
    (same : SameLookups first second table otherTable)
    (runs : configuration.RunsTo first table moves ending) :
    configuration.RunsTo second otherTable moves ending := by
  induction runs with
  | halted stops =>
      apply Configuration.RunsTo.halted
      rw [← same.step_eq]
      exact stops
  | moved step _ induction =>
      refine .moved (Configuration.step_eq_moved_iff.mp ?_) induction
      rw [← same.step_eq]
      exact step.step_eq

end SameLookups

namespace Grammar

variable {first second : Grammar}

theorem DistinctBodies.anti
    (included : second.productions ⊆ first.productions) (distinct : first.DistinctBodies) :
    second.DistinctBodies := by
  intro production member other otherMember
  exact distinct production (included member) other (included otherMember)

/-- Where each body has one head only, the earliest production is the only one. -/
theorem DistinctBodies.headOf?_eq_some_iff_mem
    {grammar : Grammar} {body : List Symbol} {head : Symbol}
    (distinct : grammar.DistinctBodies) :
    grammar.headOf? body = some head ↔ ⟨head, body⟩ ∈ grammar.productions :=
  ⟨mem_productions_of_headOf?, headOf?_of_distinctBodies distinct⟩

theorem heads_perm
    (same : ∀ production, production ∈ first.productions ↔ production ∈ second.productions) :
    first.heads.Perm second.heads := by
  apply (List.perm_ext_iff_of_nodup (nodup_eraseDups _) (nodup_eraseDups _)).mpr
  intro symbol
  change symbol ∈ first.heads ↔ symbol ∈ second.heads
  simp only [mem_heads_iff, same]

theorem stepLimit_eq
    (same : ∀ production, production ∈ first.productions ↔ production ∈ second.productions)
    (length : Nat) :
    first.stepLimit length = second.stepLimit length := by
  rw [stepLimit, stepLimit, (heads_perm same).length_eq]

theorem sameLookups
    (same : ∀ production, production ∈ first.productions ↔ production ∈ second.productions)
    (sameStart : first.start = second.start) (distinct : first.DistinctBodies) :
    SameLookups first second (Table.ofGrammar first) (Table.ofGrammar second) where
  start_eq := sameStart
  headOf?_eq body := by
    have distinctAgain := distinct.anti fun production => (same production).mpr
    apply Option.ext
    intro head
    rw [distinct.headOf?_eq_some_iff_mem, distinctAgain.headOf?_eq_some_iff_mem, same]
  relation_eq left right := by
    apply Table.relation_eq_of_subset
    · exact fun production => (same production).mp
    · exact fun production => (same production).mpr
    · exact fun _ => sameStart

/-- Where no two heads share a body, texts are parsed the same however the
productions are ordered and repeated. -/
theorem parse_declaration_order
    (first second : Grammar)
    (same : ∀ production, production ∈ first.productions ↔ production ∈ second.productions)
    (sameStart : first.start = second.start) (distinct : first.DistinctBodies)
    (symbols : List Symbol) :
    let table := Table.ofGrammar first
    let otherTable := Table.ofGrammar second
    first.parse table symbols = second.parse otherTable symbols ∧
      ∀ moves ending, (Configuration.initial symbols).RunsTo first table moves ending ↔
        (Configuration.initial symbols).RunsTo second otherTable moves ending := by
  intro table otherTable
  have lookups : SameLookups first second table otherTable :=
    sameLookups same sameStart distinct
  constructor
  · rw [parse, parse, run, run, stepLimit_eq same, lookups.run_eq]
  · intro moves ending
    exact ⟨lookups.runsTo, lookups.symm.runsTo⟩

/-- The sums with every production declared twice, the first time in the
opposite order. -/
def repeatedSums : Grammar :=
  { sums with
    productions := sums.productions.reverse ++ sums.productions
    wellFormed := by
      intro production member
      rcases List.mem_append.mp member with reversed | again
      · exact sums.wellFormed production (List.mem_reverse.mp reversed)
      · exact sums.wellFormed production again
    start_isHead := by
      obtain ⟨production, member, isHead⟩ := sums.start_isHead
      exact ⟨production, List.mem_append_right _ member, isHead⟩ }

/-- A sum of a letter and a product, which both grammars accept. -/
theorem repeatedSums_parse_declaration_order :
    let symbols := Symbol.terminals ['a', '+', 'a', '*', 'a']
    (∀ production, production ∈ repeatedSums.productions ↔ production ∈ sums.productions) ∧
      repeatedSums.start = sums.start ∧ repeatedSums.DistinctBodies ∧
      repeatedSums.parse (Table.ofGrammar repeatedSums) symbols =
        sums.parse (Table.ofGrammar sums) symbols ∧
      (sums.run (Table.ofGrammar sums) symbols).ending = .accepted := by
  intro symbols
  have same : ∀ production,
      production ∈ repeatedSums.productions ↔ production ∈ sums.productions := by
    simp [repeatedSums]
  have distinct : repeatedSums.DistinctBodies := by decide
  have parsed := parse_declaration_order repeatedSums sums same rfl distinct symbols
  exact ⟨same, rfl, distinct, parsed.1, by decide +kernel⟩

end Grammar

end PrecedenceGrammar
