import PrecedenceGrammar.Proofs.RightmostDerivations
import PrecedenceGrammar.Proofs.TableRelations

/-!
# The ends of derived forms

Saturation follows the symbol at one side of a form from production to
production.  Whatever a derivation rewrites, and in whatever order, these are
the symbols that it can bring to the side.  So every cell of a grammar's own
table says what its derivations do.
-/

namespace PrecedenceGrammar

namespace Side

variable {side : Side}

theorem symbolOf?_singleton (side : Side) (symbol : Symbol) :
    side.symbolOf? [symbol] = some symbol := by
  cases side with
  | leading => rfl
  | trailing => rfl

theorem exists_symbolOf?
    (side : Side) {form : List Symbol} (nonempty : form ≠ []) :
    ∃ symbol, side.symbolOf? form = some symbol := by
  cases side with
  | leading => exact ⟨_, List.head?_eq_some_head nonempty⟩
  | trailing => exact ⟨_, List.getLast?_eq_some_getLast nonempty⟩

/-- A symbol in the place of which a body is written is at the side itself, or
the side stays as it is. -/
theorem symbolOf?_rewritten
    {body : List Symbol} (nonempty : body ≠ []) (before after : List Symbol) (head : Symbol) :
    (side.symbolOf? (before ++ head :: after) = some head ∧
        side.symbolOf? (before ++ body ++ after) = side.symbolOf? body) ∨
      side.symbolOf? (before ++ body ++ after) = side.symbolOf? (before ++ head :: after) := by
  cases side with
  | leading =>
      cases before with
      | nil => exact Or.inl ⟨rfl, List.head?_append_of_ne_nil _ nonempty⟩
      | cons first before => exact Or.inr rfl
  | trailing =>
      rcases List.eq_nil_or_concat' after with rfl | ⟨between, last, rfl⟩
      · refine Or.inl ⟨?_, ?_⟩
        · simp [symbolOf?]
        · simp [symbolOf?, List.getLast?_append_of_ne_nil _ nonempty]
      · have ends (front : List Symbol) : (front ++ (between ++ [last])).getLast? = some last := by
          simp
        rw [List.append_cons before head]
        exact Or.inr ((ends _).trans (ends _).symm)

end Side

namespace Grammar

variable {grammar : Grammar} {side : Side} {symbol found : Symbol}

/-- Zero or more steps lead from one symbol to a form with the other at the
side. -/
def DerivesEnd (grammar : Grammar) (side : Side) (symbol found : Symbol) : Prop :=
  ∃ form, grammar.Derives [symbol] form ∧ side.symbolOf? form = some found

/-- One or more steps do. -/
def DerivesNewEnd (grammar : Grammar) (side : Side) (symbol found : Symbol) : Prop :=
  ∃ form, Relation.TransGen grammar.Rewrites [symbol] form ∧ side.symbolOf? form = some found

theorem Rewrites.origin_ne_nil
    {origin target : List Symbol} (rewrite : grammar.Rewrites origin target) : origin ≠ [] := by
  obtain ⟨before, after, production, _⟩ := rewrite
  simp

/-- A step leaves the symbol at a side or puts there what the symbol exposes. -/
theorem Rewrites.exists_symbolOf?
    {origin target : List Symbol} (rewrite : grammar.Rewrites origin target)
    (atSide : side.symbolOf? origin = some symbol) :
    ∃ next, side.symbolOf? target = some next ∧
      Relation.ReflGen (grammar.Exposes side) symbol next := by
  obtain ⟨before, after, production, member⟩ := rewrite
  have nonempty := body_ne_nil member
  rcases Side.symbolOf?_rewritten nonempty before after production.head with
    ⟨isHead, isBody⟩ | untouched
  · obtain ⟨next, exposed⟩ := side.exists_symbolOf? nonempty
    have same : production.head = symbol := Option.some.inj (isHead.symm.trans atSide)
    subst same
    refine ⟨next, isBody.trans exposed, .single ?_⟩
    exact exposes_iff.mpr ⟨production.body, member, exposed⟩
  · exact ⟨symbol, untouched.trans atSide, .refl⟩

theorem exists_path_of_rewrites
    {origin target : List Symbol}
    (derivation : Relation.ReflTransGen grammar.Rewrites origin target)
    (atSide : side.symbolOf? origin = some symbol) :
    ∃ next, side.symbolOf? target = some next ∧
      Relation.ReflTransGen (grammar.Exposes side) symbol next := by
  induction derivation with
  | refl => exact ⟨symbol, atSide, .refl⟩
  | tail _ rewrite induction =>
      obtain ⟨between, betweenAtSide, path⟩ := induction
      obtain ⟨next, nextAtSide, further⟩ := rewrite.exists_symbolOf? betweenAtSide
      exact ⟨next, nextAtSide, path.trans further.to_reflTransGen⟩

/-- What the symbol at a side exposes can be brought there by one step. -/
theorem Exposes.exists_rewrites
    {origin : List Symbol} (exposed : grammar.Exposes side symbol found)
    (atSide : side.symbolOf? origin = some symbol) :
    ∃ target, grammar.Rewrites origin target ∧ side.symbolOf? target = some found := by
  obtain ⟨body, member, atBody⟩ := exposes_iff.mp exposed
  have nonempty : body ≠ [] := body_ne_nil member
  cases side with
  | leading =>
      obtain ⟨later, rfl⟩ := List.head?_eq_some_iff.mp atSide
      refine ⟨_, .production [] later ⟨symbol, body⟩ member, ?_⟩
      exact (List.head?_append_of_ne_nil _ nonempty).trans atBody
  | trailing =>
      obtain ⟨earlier, rfl⟩ := List.getLast?_eq_some_iff.mp atSide
      refine ⟨_, .production earlier [] ⟨symbol, body⟩ member, ?_⟩
      rw [List.append_nil]
      exact (List.getLast?_append_of_ne_nil _ nonempty).trans atBody

theorem Reaches.derivesNewEnd
    (reached : grammar.Reaches side symbol found) :
    grammar.DerivesNewEnd side symbol found := by
  induction reached with
  | single exposed =>
      obtain ⟨form, rewrite, atSide⟩ := exposed.exists_rewrites (side.symbolOf?_singleton symbol)
      exact ⟨form, .single rewrite, atSide⟩
  | tail _ exposed induction =>
      obtain ⟨middle, derivation, atMiddle⟩ := induction
      obtain ⟨form, rewrite, atSide⟩ := exposed.exists_rewrites atMiddle
      exact ⟨form, derivation.tail rewrite, atSide⟩

/-- The first step from a single symbol writes a body, and its side is the one
that is followed from there. -/
theorem DerivesNewEnd.reaches
    (derived : grammar.DerivesNewEnd side symbol found) :
    grammar.Reaches side symbol found := by
  obtain ⟨form, derivation, atSide⟩ := derived
  obtain ⟨body, first, later⟩ := Relation.TransGen.head'_iff.mp derivation
  have member := first.mem_productions
  obtain ⟨next, atBody⟩ := side.exists_symbolOf? (body_ne_nil member)
  have exposed : grammar.Exposes side symbol next := exposes_iff.mpr ⟨body, member, atBody⟩
  obtain ⟨last, atForm, path⟩ := exists_path_of_rewrites later atBody
  have same : last = found := Option.some.inj (atForm.symm.trans atSide)
  subst same
  exact Relation.TransGen.head' exposed path

theorem derivesNewEnd_iff :
    grammar.DerivesNewEnd side symbol found ↔ grammar.Reaches side symbol found :=
  ⟨DerivesNewEnd.reaches, Reaches.derivesNewEnd⟩

theorem derivesEnd_iff :
    grammar.DerivesEnd side symbol found ↔
      found = symbol ∨ grammar.Reaches side symbol found := by
  constructor
  · intro derived
    obtain ⟨form, derivation, atSide⟩ := derived
    rcases Relation.reflTransGen_iff_eq_or_transGen.mp derivation with rfl | proper
    · rw [side.symbolOf?_singleton] at atSide
      exact Or.inl (Option.some.inj atSide).symm
    · exact Or.inr (DerivesNewEnd.reaches ⟨form, proper, atSide⟩)
  · intro reached
    rcases reached with rfl | proper
    · exact ⟨[found], .refl, side.symbolOf?_singleton found⟩
    · obtain ⟨form, derivation, atSide⟩ := proper.derivesNewEnd
      exact ⟨form, derivation.to_reflTransGen, atSide⟩

theorem less_iff_derives
    {left right : Symbol} :
    grammar.Less left right ↔
      (∃ next, grammar.Adjacent left next ∧ grammar.DerivesNewEnd .leading next right) ∨
        left = .startMarker ∧ grammar.DerivesEnd .leading grammar.start right := by
  simp only [Less, derivesNewEnd_iff, derivesEnd_iff]

theorem greater_iff_derives
    {left right : Symbol} :
    grammar.Greater left right ↔
      (right.isTerminal = true ∧ ∃ ended next, grammar.Adjacent ended next ∧
          grammar.DerivesNewEnd .trailing ended left ∧ grammar.DerivesEnd .leading next right) ∨
        right = .endMarker ∧ grammar.DerivesEnd .trailing grammar.start left := by
  simp only [Greater, derivesNewEnd_iff, derivesEnd_iff]

end Grammar

namespace Table

variable {grammar : Grammar} {left right : Symbol}

theorem relation_eq_empty_iff :
    (ofGrammar grammar).relation left right = .empty ↔
      ¬ grammar.Shifts left right ∧ ¬ grammar.Greater left right := by
  rw [← shifts_ofGrammar_iff, ← greater_ofGrammar_iff]
  rcases (ofGrammar grammar).relation left right with ⟨_ | _, _ | _, _ | _⟩ <;> decide

theorem relation_eq_empty_of_left
    (unknown : left ∉ grammar.symbols) (different : left ≠ .startMarker) :
    (ofGrammar grammar).relation left right = .empty := by
  apply relation_eq_empty_iff.mpr
  constructor
  · intro shifts
    exact shifts.mem_symbols.1.elim unknown different
  · intro greater
    exact unknown greater.mem_symbols.1

theorem relation_eq_empty_of_right
    (unknown : right ∉ grammar.symbols) (different : right ≠ .endMarker) :
    (ofGrammar grammar).relation left right = .empty := by
  apply relation_eq_empty_iff.mpr
  constructor
  · intro shifts
    exact unknown shifts.mem_symbols.2
  · intro greater
    exact greater.mem_symbols.2.elim unknown different

/-- Equal is neighbourhood in a body, less and greater are neighbourhood with
what derivations begin and end with, and the markers stand at the borders. -/
theorem relation_ofGrammar_iff_derives
    (grammar : Grammar) :
    let table := ofGrammar grammar
    (∀ left right,
      ((table.relation left right).equal = true ↔
        left.isGrammarSymbol = true ∧ right.isGrammarSymbol = true ∧
          grammar.Adjacent left right) ∧
      ((table.relation left right).less = true ↔
        (∃ next, grammar.Adjacent left next ∧ grammar.DerivesNewEnd .leading next right) ∨
          left = .startMarker ∧ grammar.DerivesEnd .leading grammar.start right) ∧
      ((table.relation left right).greater = true ↔
        (right.isTerminal = true ∧ ∃ ended next, grammar.Adjacent ended next ∧
            grammar.DerivesNewEnd .trailing ended left ∧
            grammar.DerivesEnd .leading next right) ∨
          right = .endMarker ∧ grammar.DerivesEnd .trailing grammar.start left)) ∧
      (∀ left right, left ∉ grammar.symbols ∧ left ≠ .startMarker ∨
        right ∉ grammar.symbols ∧ right ≠ .endMarker → table.relation left right = .empty) ∧
      (∀ left, table.relation left .startMarker = .empty) ∧
      (∀ right, table.relation .endMarker right = .empty) ∧
      (∀ right, (table.relation .startMarker right).equal = false ∧
        (table.relation .startMarker right).greater = false) ∧
      (∀ left, (table.relation left .endMarker).less = false ∧
        (table.relation left .endMarker).equal = false) := by
  intro table
  refine ⟨?_, ?_, ?_, ?_, relation_startMarker_left grammar, relation_endMarker_right grammar⟩
  · intro left right
    refine ⟨?_, ?_, ?_⟩
    · rw [equal_ofGrammar_iff]
      constructor
      · intro adjacent
        exact ⟨adjacent.isGrammarSymbol.1, adjacent.isGrammarSymbol.2, adjacent⟩
      · intro neighbours
        exact neighbours.2.2
    · exact less_ofGrammar_iff.trans Grammar.less_iff_derives
    · exact greater_ofGrammar_iff.trans Grammar.greater_iff_derives
  · intro left right unknown
    rcases unknown with ⟨unknown, different⟩ | ⟨unknown, different⟩
    · exact relation_eq_empty_of_left unknown different
    · exact relation_eq_empty_of_right unknown different
  · intro left
    apply relation_eq_empty_of_right grammar.startMarker_not_mem_symbols
    decide
  · intro right
    apply relation_eq_empty_of_left grammar.endMarker_not_mem_symbols
    decide

end Table

namespace EndSets

theorem mem_derived_iff_derivesNewEnd
    {grammar : Grammar} {side : Side} {symbol found : Symbol} :
    found ∈ (ofGrammar grammar).derived side symbol ↔
      grammar.DerivesNewEnd side symbol found :=
  mem_derived_iff.trans Grammar.derivesNewEnd_iff.symm

/-- FIRST holds exactly what begins a form that is derived in one or more steps,
and LAST what ends one, whichever symbols the steps rewrite and in whatever
order. -/
theorem mem_derived_iff_derives
    (grammar : Grammar) (symbol : Symbol) :
    let sets := ofGrammar grammar
    (∀ found, found ∈ sets.derived .leading symbol ↔
      ∃ form, Relation.TransGen grammar.Rewrites [symbol] form ∧ form.head? = some found) ∧
      (∀ found, found ∈ sets.derived .trailing symbol ↔
        ∃ form, Relation.TransGen grammar.Rewrites [symbol] form ∧
          form.getLast? = some found) ∧
      (grammar.isDefined symbol = true →
        ∀ side, sets.ofSymbol side symbol = sets.derived side symbol) := by
  intro sets
  refine ⟨fun _ => mem_derived_iff_derivesNewEnd, fun _ => mem_derived_iff_derivesNewEnd, ?_⟩
  intro isDefined side
  have nonterminal := Grammar.isNonterminal_of_isHead ((grammar.isDefined_iff symbol).mp isDefined)
  exact if_pos nonterminal

/-- Sums begin and end with the letter, and only begin with sums. -/
theorem sums_derived :
    let sets := ofGrammar Grammar.sums
    Grammar.sums.isDefined (.nonterminal 'E') = true ∧
      .terminal 'a' ∈ sets.ofSymbol .trailing (.nonterminal 'E') ∧
      (∃ form, Relation.TransGen Grammar.sums.Rewrites [.nonterminal 'E'] form ∧
        form.head? = some (.nonterminal 'E')) ∧
      ¬ ∃ form, Relation.TransGen Grammar.sums.Rewrites [.nonterminal 'E'] form ∧
        form.getLast? = some (.nonterminal 'E') := by
  intro sets
  have isDefined : Grammar.sums.isDefined (.nonterminal 'E') = true := by decide
  obtain ⟨first, last, whole⟩ := mem_derived_iff_derives Grammar.sums (.nonterminal 'E')
  refine ⟨isDefined, ?_, (first _).mp (by decide), fun ends => ?_⟩
  · have ends : .terminal 'a' ∈ sets.derived .trailing (.nonterminal 'E') := by decide
    exact whole isDefined .trailing ▸ ends
  · have absent : .nonterminal 'E' ∉ sets.derived .trailing (.nonterminal 'E') := by decide
    exact absent ((last _).mpr ends)

end EndSets

end PrecedenceGrammar
