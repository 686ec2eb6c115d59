import PrecedenceGrammar.Proofs.Documents
import PrecedenceGrammar.Proofs.GenerationOutcomes

/-!
# Warnings and generation

A document warns of each use of a nonterminal that its grammar does not define,
and of nothing else.  These are the nonterminals that a generation can turn out
to lack rules for, whatever the start symbol and the source of choices.
-/

namespace PrecedenceGrammar

namespace Grammar

variable {grammar : Grammar} {symbol : Symbol}

/-- A generation comes to a nonterminal without rules by a body only, since the
start symbol has some. -/
theorem Occurs.isDefined_or_used
    {depth : Nat} (occurs : grammar.Occurs depth symbol) :
    grammar.isDefined symbol = true ∨
      ∃ production ∈ grammar.productions, symbol ∈ production.body := by
  cases occurs with
  | start => exact .inl ((grammar.isDefined_iff _).mpr grammar.start_isHead)
  | used _ candidate member _ =>
      exact .inr ⟨_, mem_productions_of_mem_candidates candidate, member⟩

theorem used_of_randomTree_eq_undefinedNonterminal
    {σ : Type} [ChoiceSource σ] {source : σ}
    (failed : grammar.randomTree source = .error (.undefinedNonterminal symbol)) :
    symbol.isNonterminal = true ∧ grammar.isDefined symbol = false ∧
      ∃ production ∈ grammar.productions, symbol ∈ production.body := by
  cases randomTree_fails failed with
  | undefinedNonterminal occurs _ no_bodies =>
      have undefined : grammar.isDefined symbol ≠ true := by
        intro isDefined
        exact (grammar.isDefined_iff_bodies_ne_nil symbol).mp isDefined no_bodies
      exact ⟨occurs.isNonterminal, Bool.eq_false_iff.mpr undefined,
        occurs.isDefined_or_used.resolve_left undefined⟩

end Grammar

namespace Document

open RuleLine (Declares)

/-- A symbol in the body of a rule, where the rule is located. -/
structure Use where
  symbol : Symbol
  location : Location

/-- The uses in all bodies, in the order of the rules and of the symbols in each
body. -/
def uses (rules : List LocatedRule) : List Use :=
  rules.flatMap fun rule => rule.production.body.map fun symbol => ⟨symbol, rule.location⟩

/-- The warnings about uses, in their order: one for each use of a nonterminal
that the grammar does not define. -/
inductive Warned (grammar : Grammar) : List Use → List (Located LoadError) → Prop where
  | none : Warned grammar [] []
  | undefined {character : Char} {location : Location} {uses : List Use}
      {warnings : List (Located LoadError)}
      (undefined : grammar.isDefined (.nonterminal character) = false)
      (later : Warned grammar uses warnings) :
      Warned grammar (⟨.nonterminal character, location⟩ :: uses)
        (⟨location, .undefinedNonterminal character⟩ :: warnings)
  | other {use : Use} {uses : List Use} {warnings : List (Located LoadError)}
      (other : use.symbol.isNonterminal = false ∨ grammar.isDefined use.symbol = true)
      (later : Warned grammar uses warnings) :
      Warned grammar (use :: uses) warnings

section Exactness

variable {grammar : Grammar} {rules : List LocatedRule}

theorem Warned.append
    {firstUses laterUses : List Use} {firstWarnings laterWarnings : List (Located LoadError)}
    (first : Warned grammar firstUses firstWarnings)
    (later : Warned grammar laterUses laterWarnings) :
    Warned grammar (firstUses ++ laterUses) (firstWarnings ++ laterWarnings) := by
  induction first with
  | none => exact later
  | undefined undefined _ induction => exact .undefined undefined induction
  | other other _ induction => exact .other other induction

theorem Warned.mem
    {uses : List Use} {warnings : List (Located LoadError)} {character : Char}
    {location : Location} (warned : Warned grammar uses warnings)
    (used : ⟨.nonterminal character, location⟩ ∈ uses)
    (undefined : grammar.isDefined (.nonterminal character) = false) :
    ⟨location, .undefinedNonterminal character⟩ ∈ warnings := by
  induction warned with
  | none => cases used
  | undefined _ _ induction =>
      cases used with
      | head => exact List.mem_cons_self
      | tail _ used => exact List.mem_cons_of_mem _ (induction used)
  | other other _ induction =>
      cases used with
      | head => simp [Symbol.isNonterminal, undefined] at other
      | tail _ used => exact induction used

/-- A grammar defines the heads of the rules that it is made of. -/
theorem isDefined_eq_any
    (kept : rules.map (·.production) = grammar.productions) (symbol : Symbol) :
    grammar.isDefined symbol = rules.any fun rule => rule.production.head == symbol := by
  rw [Grammar.isDefined, ← kept, List.any_map]
  rfl

theorem warned_undefinedIn
    (kept : rules.map (·.production) = grammar.productions) (rule : LocatedRule) :
    Warned grammar (rule.production.body.map fun symbol => ⟨symbol, rule.location⟩)
      (undefinedIn rules rule) := by
  simp only [undefinedIn, ← isDefined_eq_any kept]
  induction rule.production.body with
  | nil => exact .none
  | cons symbol body induction =>
      rw [List.map_cons, List.filterMap_cons]
      cases symbol with
      | nonterminal character =>
          cases isDefined : grammar.isDefined (.nonterminal character) with
          | true => exact .other (.inr isDefined) induction
          | false => exact .undefined isDefined induction
      | _ => exact .other (.inl rfl) induction

/-- Each rule is warned about for want of a head among all of the rules. -/
theorem warned_flatMap_undefinedIn
    (kept : rules.map (·.production) = grammar.productions) (some_rules : List LocatedRule) :
    Warned grammar (uses some_rules) (some_rules.flatMap (undefinedIn rules)) := by
  induction some_rules with
  | nil => exact .none
  | cons rule later induction => exact (warned_undefinedIn kept rule).append induction

/-- A symbol that is used by a production is used where a rule is located. -/
theorem exists_mem_uses
    {production : Production} {symbol : Symbol}
    (kept : rules.map (·.production) = grammar.productions)
    (member : production ∈ grammar.productions) (inBody : symbol ∈ production.body) :
    ∃ location, ⟨symbol, location⟩ ∈ uses rules := by
  rw [← kept] at member
  obtain ⟨rule, isRule, rfl⟩ := List.mem_map.mp member
  refine ⟨rule.location, ?_⟩
  rw [uses]
  apply List.mem_flatMap.mpr
  exact ⟨rule, isRule, List.mem_map.mpr ⟨symbol, inBody, rfl⟩⟩

end Exactness

/-- The warnings of a document are about the uses of undefined nonterminals in its
rule lines, one for each use and in their order.  From any start symbol, a
generation fails for an undefined nonterminal only if the document warns of it. -/
theorem ofLines_warnings
    {path : Path} {lines : List Text} {document : Document}
    (isRead : ofLines path lines = .ok document) :
    (∃ ruleLines testLines rules, Layout lines ruleLines testLines ∧
      List.Forall₂ (fun line rule =>
        Declares line.1 rule.production ∧ rule.location = ⟨path, line.2⟩) ruleLines rules ∧
      rules.map (·.production) = document.grammar.productions ∧
      Warned document.grammar (uses rules) document.warnings) ∧
    document.grammar.withStart document.grammar.start = .ok document.grammar ∧
    ∀ start, document.grammar.isDefined start = true →
      ∃ grammar, document.grammar.withStart start = .ok grammar ∧ grammar.start = start ∧
        ∀ {σ : Type} [ChoiceSource σ] (source : σ),
          (document.warnings = [] →
            ∀ symbol, grammar.randomTree source ≠ .error (.undefinedNonterminal symbol)) ∧
          ∀ symbol, grammar.randomTree source = .error (.undefinedNonterminal symbol) →
            ∃ character location, symbol = .nonterminal character ∧
              ⟨location, .undefinedNonterminal character⟩ ∈ document.warnings := by
  obtain ⟨rules, readAs, made, _, warnings_eq⟩ := (ofLines_eq_ok_iff path).mp isRead
  obtain ⟨productions_eq, _⟩ := Grammar.ofProductions_eq_ok_iff.mp made
  have kept : rules.map (·.production) = document.grammar.productions := productions_eq.symm
  have warned : Warned document.grammar (uses rules) document.warnings :=
    warnings_eq ▸ warned_flatMap_undefinedIn kept rules
  refine ⟨?exact, document.grammar.withStart_start, ?predicted⟩
  case exact =>
    refine ⟨_, _, rules, layout lines, ?_, kept, warned⟩
    exact readAs.imp fun _ _ found => ⟨RuleLine.read_eq_ok_iff.mp found.1, found.2⟩
  case predicted =>
    intro start isHead
    obtain ⟨grammar, granted, same, starts⟩ := Grammar.withStart_eq_ok isHead
    refine ⟨grammar, granted, starts, ?_⟩
    intro σ _ source
    have warns : ∀ symbol,
        grammar.randomTree source = .error (.undefinedNonterminal symbol) →
          ∃ character location, symbol = .nonterminal character ∧
            ⟨location, .undefinedNonterminal character⟩ ∈ document.warnings := by
      intro symbol failed
      obtain ⟨isNonterminal, undefined, production, member, inBody⟩ :=
        Grammar.used_of_randomTree_eq_undefinedNonterminal failed
      rw [Grammar.isDefined_congr same] at undefined
      rw [same] at member
      obtain ⟨location, used⟩ := exists_mem_uses kept member inBody
      cases symbol with
      | nonterminal character => exact ⟨character, location, rfl, warned.mem used undefined⟩
      | _ => cases isNonterminal
    refine ⟨?_, warns⟩
    intro no_warnings symbol failed
    obtain ⟨_, _, _, warning⟩ := warns symbol failed
    rw [no_warnings] at warning
    cases warning

/-- Two rules with a comment between them use the same undefined nonterminal.  The
generation that always takes the first candidate meets it from the one head, and
does not from the other. -/
theorem repeated_ofLines_warnings :
    let path : Path := ⟨"uses"⟩
    let lines : List Text :=
      [['S', ' ', 'a', 'B', 'c'], [';', 'B'], ['S', ' ', 'B', 'C'], ['C', ' ', 'c']]
    let zeros := WordStream.cycle 0 []
    ∃ document first second, ofLines path lines = .ok document ∧
      document.warnings =
        [⟨⟨path, 1⟩, .undefinedNonterminal 'B'⟩, ⟨⟨path, 3⟩, .undefinedNonterminal 'B'⟩] ∧
      document.grammar.withStart (.nonterminal 'S') = .ok first ∧
      first.randomTree zeros = .error (.undefinedNonterminal (.nonterminal 'B')) ∧
      (∃ location, ⟨location, .undefinedNonterminal 'B'⟩ ∈ document.warnings) ∧
      document.grammar.withStart (.nonterminal 'C') = .ok second ∧
      (second.randomTree zeros).map (fun made => made.1.yield) = .ok ['c'] := by
  intro path lines zeros
  have met : ∃ document first second, ofLines path lines = .ok document ∧
      document.warnings =
        [⟨⟨path, 1⟩, .undefinedNonterminal 'B'⟩, ⟨⟨path, 3⟩, .undefinedNonterminal 'B'⟩] ∧
      document.grammar.withStart (.nonterminal 'S') = .ok first ∧
      (first.randomTree zeros).map (fun made => made.1) =
        .error (.undefinedNonterminal (.nonterminal 'B')) ∧
      document.grammar.withStart (.nonterminal 'C') = .ok second ∧
      (second.randomTree zeros).map (fun made => made.1.yield) = .ok ['c'] := by
    refine ⟨_, _, _, rfl, rfl, rfl, ?_, rfl, ?_⟩
    · decide +kernel
    · decide +kernel
  obtain ⟨document, first, second, isRead, warnings_eq, granted, failed, other⟩ := met
  rw [map_eq_error_iff] at failed
  obtain ⟨_, _, predicted⟩ := ofLines_warnings isRead
  refine ⟨document, first, second, isRead, warnings_eq, granted, failed, ?_, other⟩
  have isHead : document.grammar.isDefined (.nonterminal 'S') = true := by
    by_contra undefined
    rw [Grammar.withStart_eq_error (by simpa using undefined)] at granted
    cases granted
  obtain ⟨restarted, same, _, outcome⟩ := predicted (.nonterminal 'S') isHead
  rw [granted] at same
  cases same
  obtain ⟨_, location, named, warning⟩ := (outcome zeros).2 _ failed
  cases named
  exact ⟨location, warning⟩

end Document

end PrecedenceGrammar
