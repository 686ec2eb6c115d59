import Mathlib.Data.List.Induction
import Mathlib.Data.List.Nodup
import PrecedenceGrammar.Grammar.Basic

/-!
# Grammars and their views

Productions are refused for the first defect of the earliest one that has any,
and otherwise make a grammar.  Whatever start symbols are asked for later on, the
views of the grammar list what its productions hold, each in their order.
-/

namespace PrecedenceGrammar

section Occurrences

variable {α : Type} [BEq α] [LawfulBEq α] {items : List α} {item : α}

theorem nodup_eraseDups :
    ∀ items : List α, items.eraseDups.Nodup
  | [] => by simp
  | item :: later => by
      rw [List.eraseDups_cons, List.nodup_cons]
      constructor
      · intro member
        simp [List.mem_eraseDups] at member
      · exact nodup_eraseDups (later.filter fun other => !other == item)
termination_by items => items.length
decreasing_by
  exact Nat.lt_succ_of_le (List.length_filter_le _ _)

/-- The members of a list, each once, in the order of their first occurrences. -/
structure FirstOccurrences (items distinct : List α) : Prop where
  nodup : distinct.Nodup
  mem_iff : ∀ item, item ∈ distinct ↔ item ∈ items
  ordered : distinct.Pairwise fun earlier later => items.idxOf earlier < items.idxOf later

theorem eraseDups_concat_of_mem
    (known : item ∈ items) :
    (items ++ [item]).eraseDups = items.eraseDups := by
  simp [List.eraseDups_append, List.cons_removeAll, known]

theorem eraseDups_concat_of_not_mem
    (new : item ∉ items) :
    (items ++ [item]).eraseDups = items.eraseDups ++ [item] := by
  simp [List.eraseDups_append, List.cons_removeAll, List.eraseDups_cons, new]

theorem pairwise_idxOf_eraseDups (items : List α) :
    items.eraseDups.Pairwise fun earlier later => items.idxOf earlier < items.idxOf later := by
  induction items using List.reverseRecOn with
  | nil => simp
  | append_singleton items item induction =>
      have kept : items.eraseDups.Pairwise fun earlier later =>
          (items ++ [item]).idxOf earlier < (items ++ [item]).idxOf later := by
        apply induction.imp_of_mem
        intro earlier later isEarlier isLater before
        rw [List.mem_eraseDups] at isEarlier isLater
        rw [List.idxOf_append_of_mem isEarlier, List.idxOf_append_of_mem isLater]
        exact before
      by_cases known : item ∈ items
      · rw [eraseDups_concat_of_mem known]
        exact kept
      · rw [eraseDups_concat_of_not_mem known, List.pairwise_append]
        refine ⟨kept, List.pairwise_singleton _ _, ?_⟩
        intro earlier isEarlier last isLast
        rw [List.mem_eraseDups] at isEarlier
        rw [List.mem_singleton.mp isLast, List.idxOf_append_of_mem isEarlier,
          List.idxOf_append_of_notMem known]
        exact Nat.lt_add_right _ (List.idxOf_lt_length_of_mem isEarlier)

theorem firstOccurrences_eraseDups (items : List α) :
    FirstOccurrences items items.eraseDups where
  nodup := nodup_eraseDups items
  mem_iff _ := List.mem_eraseDups
  ordered := pairwise_idxOf_eraseDups items

end Occurrences

namespace Production

/-- The first thing that is wrong with a production: its head, then an empty
body, then the first symbol that no body can hold. -/
inductive FirstDefect : Production → GrammarError → Prop where
  | invalidHead {head : Symbol} {body : List Symbol}
      (notNonterminal : head.isNonterminal = false) :
      FirstDefect ⟨head, body⟩ (.invalidHead head)
  | emptyBody {head : Symbol} (isNonterminal : head.isNonterminal = true) :
      FirstDefect ⟨head, []⟩ (.emptyBody head)
  | invalidBodySymbol {head symbol : Symbol} {front later : List Symbol}
      (isNonterminal : head.isNonterminal = true)
      (allowed : ∀ other ∈ front, other.isGrammarSymbol = true)
      (refused : symbol.isGrammarSymbol = false) :
      FirstDefect ⟨head, front ++ symbol :: later⟩ (.invalidBodySymbol symbol)

theorem defect?_eq_some_iff
    {production : Production} {error : GrammarError} :
    production.defect? = some error ↔ production.FirstDefect error := by
  obtain ⟨head, body⟩ := production
  constructor
  · intro found
    unfold defect? at found
    split at found
    · next notNonterminal =>
      cases found
      exact .invalidHead (by simpa using notNonterminal)
    · next isNonterminal =>
      have nonterminal : head.isNonterminal = true := by simpa using isNonterminal
      split at found
      · next empty =>
        cases found
        obtain rfl : body = [] := List.isEmpty_iff.mp empty
        exact .emptyBody nonterminal
      · obtain ⟨symbol, isFirst, rfl⟩ := Option.map_eq_some_iff.mp found
        obtain ⟨refused, front, later, rfl, allowed⟩ := List.find?_eq_some_iff_append.mp isFirst
        exact .invalidBodySymbol nonterminal (by simpa using allowed) (by simpa using refused)
  · intro defect
    cases defect with
    | invalidHead notNonterminal => simp [defect?, notNonterminal]
    | emptyBody isNonterminal => simp [defect?, isNonterminal]
    | @invalidBodySymbol _ symbol front later isNonterminal allowed refused =>
        have isFirst : (front ++ symbol :: later).find? (!·.isGrammarSymbol) = some symbol := by
          apply List.find?_eq_some_iff_append.mpr
          exact ⟨by simp [refused], front, later, rfl, by simpa using allowed⟩
        simp [defect?, isNonterminal, isFirst]

end Production

namespace Grammar

variable {productions : List Production} {grammar first second : Grammar} {symbol start : Symbol}
  {error : GrammarError}

theorem eq_of_productions_start
    (productions : first.productions = second.productions) (start : first.start = second.start) :
    first = second := by
  cases first
  cases second
  cases productions
  cases start
  rfl

/-- The grammar that productions make, which starts with the head of the first. -/
theorem ofProductions_eq_ok_iff :
    ofProductions productions = .ok grammar ↔
      grammar.productions = productions ∧
        productions.head?.map (·.head) = some grammar.start := by
  cases productions with
  | nil => simp [ofProductions]
  | cons first later =>
      rw [ofProductions]
      split
      · next defect found =>
        obtain ⟨production, member, isDefect⟩ := List.exists_of_findSome?_eq_some found
        apply iff_of_false
        · nofun
        · intro made
          have wellFormed := grammar.wellFormed production (made.1 ▸ member)
          rw [(Production.defect?_eq_none_iff production).mpr wellFormed] at isDefect
          cases isDefect
      · constructor
        · intro made
          cases made
          exact ⟨rfl, rfl⟩
        · intro made
          obtain ⟨same, sameStart⟩ := made
          exact congrArg _ (eq_of_productions_start same.symm (Option.some.inj sameStart))

/-- The reasons for which productions do not make a grammar: there are none, or
the earliest defective one has a first defect. -/
inductive Refused : List Production → GrammarError → Prop where
  | noProductions : Refused [] .noProductions
  | defect {before after : List Production} {production : Production} {error : GrammarError}
      (earlier : ∀ other ∈ before, other.WellFormed) (defect : production.FirstDefect error) :
      Refused (before ++ production :: after) error

theorem ofProductions_eq_error_iff :
    ofProductions productions = .error error ↔ Refused productions error := by
  constructor
  · intro failed
    cases productions with
    | nil =>
        cases failed
        exact .noProductions
    | cons first later =>
        rw [ofProductions] at failed
        split at failed
        · next defect found =>
          cases failed
          obtain ⟨before, production, after, split, isDefect, earlier⟩ :=
            List.findSome?_eq_some_iff.mp found
          rw [split]
          refine .defect ?_ (Production.defect?_eq_some_iff.mp isDefect)
          intro other member
          exact (Production.defect?_eq_none_iff other).mp (earlier other member)
        · cases failed
  · intro refused
    cases refused with
    | noProductions => rfl
    | @defect before after production _ earlier defect =>
        have found : (before ++ production :: after).findSome? Production.defect? = some error := by
          apply List.findSome?_eq_some_iff.mpr
          refine ⟨before, production, after, rfl, Production.defect?_eq_some_iff.mpr defect, ?_⟩
          intro other member
          exact (Production.defect?_eq_none_iff other).mpr (earlier other member)
        obtain ⟨first, later, split⟩ :=
          List.exists_cons_of_ne_nil (List.append_ne_nil_of_right_ne_nil before
            (List.cons_ne_nil production after))
        rw [split] at found ⊢
        rw [ofProductions]
        split
        · next defect same =>
          rw [found] at same
          cases same
          rfl
        · next none =>
          rw [found] at none
          cases none

theorem exists_ofProductions_eq_ok_iff :
    (∃ grammar, ofProductions productions = .ok grammar) ↔
      productions ≠ [] ∧ ∀ production ∈ productions, production.WellFormed := by
  constructor
  · intro made
    obtain ⟨grammar, made⟩ := made
    obtain ⟨rfl, starts⟩ := ofProductions_eq_ok_iff.mp made
    refine ⟨?_, grammar.wellFormed⟩
    intro empty
    simp [empty] at starts
  · intro wellFormed
    obtain ⟨nonempty, wellFormed⟩ := wellFormed
    obtain ⟨first, later, rfl⟩ := List.exists_cons_of_ne_nil nonempty
    refine ⟨⟨first :: later, first.head, wellFormed, first, List.mem_cons_self, rfl⟩, ?_⟩
    exact ofProductions_eq_ok_iff.mpr ⟨rfl, rfl⟩

section Views

/-- The bodies of the productions with the given head, one after another. -/
inductive BodiesOf (head : Symbol) : List Production → List (List Symbol) → Prop where
  | none : BodiesOf head [] []
  | same {production : Production} {productions : List Production} {bodies : List (List Symbol)}
      (isHead : production.head = head) (later : BodiesOf head productions bodies) :
      BodiesOf head (production :: productions) (production.body :: bodies)
  | other {production : Production} {productions : List Production} {bodies : List (List Symbol)}
      (different : production.head ≠ head) (later : BodiesOf head productions bodies) :
      BodiesOf head (production :: productions) bodies

theorem bodiesOf_filter (head : Symbol) (productions : List Production) :
    BodiesOf head productions
      ((productions.filter fun production => production.head == head).map (·.body)) := by
  induction productions with
  | nil => exact .none
  | cons production productions induction =>
      by_cases isHead : production.head = head
      · rw [List.filter_cons_of_pos (by simp [isHead])]
        exact .same isHead induction
      · rw [List.filter_cons_of_neg (by simp [isHead])]
        exact .other isHead induction

/-- Symbols with the nonterminals first and then the terminals, each part in the
order that it had. -/
structure Grouped (symbols grouped : List Symbol) : Prop where
  perm : grouped.Perm symbols
  parts : ∃ nonterminals terminals, grouped = nonterminals ++ terminals ∧
    (∀ symbol ∈ nonterminals, symbol.isNonterminal = true) ∧
    (∀ symbol ∈ terminals, symbol.isTerminal = true) ∧
    nonterminals.Sublist symbols ∧ terminals.Sublist symbols

theorem isGrammarSymbol_of_mem_symbols
    (member : symbol ∈ grammar.symbols) :
    symbol.isGrammarSymbol = true := by
  obtain ⟨production, declared, rfl | inBody⟩ := (grammar.mem_symbols_iff symbol).mp member
  · exact Symbol.isGrammarSymbol_of_isNonterminal
      (grammar.wellFormed production declared).head_isNonterminal
  · exact (grammar.wellFormed production declared).body_isGrammarSymbol symbol inBody

theorem grouped_symbolsByKind (grammar : Grammar) :
    Grouped grammar.symbols grammar.symbolsByKind where
  perm := List.filter_append_perm _ _
  parts := by
    refine ⟨_, _, rfl, ?_, ?_, List.filter_sublist, List.filter_sublist⟩
    · intro symbol member
      exact (List.mem_filter.mp member).2
    · intro symbol member
      obtain ⟨listed, notNonterminal⟩ := List.mem_filter.mp member
      have known := isGrammarSymbol_of_mem_symbols listed
      rw [Symbol.isGrammarSymbol, Bool.or_eq_true] at known
      apply known.resolve_right
      simpa using notNonterminal

theorem isDefined_iff_mem_heads (grammar : Grammar) (symbol : Symbol) :
    grammar.isDefined symbol = true ↔ symbol ∈ grammar.heads := by
  rw [isDefined_iff, mem_heads_iff]

theorem isDefined_iff_bodies_ne_nil (grammar : Grammar) (symbol : Symbol) :
    grammar.isDefined symbol = true ↔ grammar.bodies symbol ≠ [] := by
  rw [isDefined_iff, bodies]
  simp

/-- A grammar shows the given productions: each view lists what they hold, and
one of them is headed by the start symbol. -/
structure Presents (grammar : Grammar) (productions : List Production) : Prop where
  productions_eq : grammar.productions = productions
  start_isHead : ∃ production ∈ productions, production.head = grammar.start
  bodies : ∀ symbol, BodiesOf symbol productions (grammar.bodies symbol)
  isDefined_iff_mem_heads : ∀ symbol, grammar.isDefined symbol = true ↔ symbol ∈ grammar.heads
  isDefined_iff_bodies_ne_nil : ∀ symbol,
    grammar.isDefined symbol = true ↔ grammar.bodies symbol ≠ []
  heads : FirstOccurrences (productions.map (·.head)) grammar.heads
  symbols : FirstOccurrences
    (productions.flatMap fun production => production.head :: production.body) grammar.symbols
  symbolsByKind : Grouped grammar.symbols grammar.symbolsByKind

theorem presents_productions (grammar : Grammar) : grammar.Presents grammar.productions where
  productions_eq := rfl
  start_isHead := grammar.start_isHead
  bodies symbol := bodiesOf_filter symbol grammar.productions
  isDefined_iff_mem_heads := grammar.isDefined_iff_mem_heads
  isDefined_iff_bodies_ne_nil := grammar.isDefined_iff_bodies_ne_nil
  heads := firstOccurrences_eraseDups _
  symbols := firstOccurrences_eraseDups _
  symbolsByKind := grammar.grouped_symbolsByKind

/-- Everything that two grammars show is the same. -/
structure SameViews (first second : Grammar) : Prop where
  productions : first.productions = second.productions
  bodies : ∀ symbol, first.bodies symbol = second.bodies symbol
  heads : first.heads = second.heads
  symbols : first.symbols = second.symbols
  start : first.start = second.start

end Views

section Requests

theorem withStart_eq_ok
    (isHead : grammar.isDefined start = true) :
    ∃ restarted, grammar.withStart start = .ok restarted ∧
      restarted.productions = grammar.productions ∧ restarted.start = start := by
  rw [withStart, dif_pos isHead]
  exact ⟨_, rfl, rfl, rfl⟩

theorem withStart_eq_error
    (undefined : grammar.isDefined start = false) :
    grammar.withStart start = .error (.undefinedStart start) := by
  rw [withStart, dif_neg (by simp [undefined])]

theorem withStart_start (grammar : Grammar) : grammar.withStart grammar.start = .ok grammar := by
  have isHead : grammar.isDefined grammar.start = true :=
    (grammar.isDefined_iff _).mpr grammar.start_isHead
  obtain ⟨restarted, granted, same, starts⟩ := withStart_eq_ok isHead
  rw [granted, eq_of_productions_start same starts]

/-- The grammar after a request for another start symbol, which is granted if the
symbol is defined and otherwise changes nothing. -/
def afterRequest (grammar : Grammar) (start : Symbol) : Grammar :=
  match grammar.withStart start with
  | .ok restarted => restarted
  | .error _ => grammar

theorem afterRequest_productions (grammar : Grammar) (start : Symbol) :
    (grammar.afterRequest start).productions = grammar.productions := by
  cases isHead : grammar.isDefined start with
  | true =>
      obtain ⟨restarted, granted, same, _⟩ := withStart_eq_ok isHead
      rw [afterRequest, granted]
      exact same
  | false => rw [afterRequest, withStart_eq_error isHead]

theorem afterRequest_start (grammar : Grammar) (start : Symbol) :
    (grammar.afterRequest start).start =
      if grammar.isDefined start = true then start else grammar.start := by
  cases isHead : grammar.isDefined start with
  | true =>
      obtain ⟨restarted, granted, _, starts⟩ := withStart_eq_ok isHead
      rw [afterRequest, granted]
      exact starts
  | false =>
      rw [afterRequest, withStart_eq_error isHead]
      rfl

theorem isDefined_congr
    (same : first.productions = second.productions) (symbol : Symbol) :
    first.isDefined symbol = second.isDefined symbol := by
  rw [isDefined, isDefined, same]

/-- No requests change the productions, and the last one that is granted decides
the start symbol. -/
theorem afterRequests (grammar : Grammar) (starts : List Symbol) :
    (starts.foldl afterRequest grammar).productions = grammar.productions ∧
      (starts.foldl afterRequest grammar).start =
        (starts.filter grammar.isDefined).getLastD grammar.start := by
  induction starts generalizing grammar with
  | nil => exact ⟨rfl, rfl⟩
  | cons start starts induction =>
      obtain ⟨productions_eq, start_eq⟩ := induction (grammar.afterRequest start)
      have same := grammar.afterRequest_productions start
      have sameDefined : (grammar.afterRequest start).isDefined = grammar.isDefined :=
        funext (isDefined_congr same)
      rw [sameDefined, afterRequest_start] at start_eq
      rw [List.foldl_cons, productions_eq, start_eq]
      refine ⟨same, ?_⟩
      by_cases isHead : grammar.isDefined start = true
      · rw [if_pos isHead, List.filter_cons_of_pos isHead, List.getLastD_cons]
      · rw [if_neg isHead, List.filter_cons_of_neg isHead]

/-- Productions make a grammar if there are some and all of them are well formed,
and are refused for the earliest defect otherwise.  Through all requests for
start symbols, granted or not, the grammar goes on to show its productions, and a
refused request leaves all of it as it was.  Its productions and its start symbol
decide everything that it shows. -/
theorem ofProductions_presents (productions : List Production) :
    ((∃ grammar, ofProductions productions = .ok grammar) ↔
        productions ≠ [] ∧ ∀ production ∈ productions, production.WellFormed) ∧
      (∀ error, ofProductions productions = .error error ↔ Refused productions error) ∧
      (∀ grammar, ofProductions productions = .ok grammar →
        productions.head?.map (·.head) = some grammar.start ∧
        ∀ starts : List Symbol,
          let current := starts.foldl afterRequest grammar
          current.Presents productions ∧
            current.start = (starts.filter grammar.isDefined).getLastD grammar.start ∧
            ∀ start,
              (current.isDefined start = true → ∃ restarted,
                current.withStart start = .ok restarted ∧
                  current.afterRequest start = restarted ∧
                  restarted.productions = productions ∧ restarted.start = start) ∧
              (current.isDefined start = false →
                current.withStart start = .error (.undefinedStart start) ∧
                  current.afterRequest start = current)) ∧
      ∀ first second : Grammar,
        (first = second ↔
          first.productions = second.productions ∧ first.start = second.start) ∧
        (first = second ↔ first.SameViews second) := by
  refine ⟨exists_ofProductions_eq_ok_iff, fun _ => ofProductions_eq_error_iff, ?_, ?_⟩
  · intro grammar made
    obtain ⟨rfl, starts⟩ := ofProductions_eq_ok_iff.mp made
    refine ⟨starts, ?_⟩
    intro starts current
    obtain ⟨productions_eq, start_eq⟩ := grammar.afterRequests starts
    refine ⟨productions_eq ▸ current.presents_productions, start_eq, ?_⟩
    intro start
    constructor
    · intro isHead
      obtain ⟨restarted, granted, same, restarts⟩ := withStart_eq_ok isHead
      refine ⟨restarted, granted, ?_, same.trans productions_eq, restarts⟩
      rw [afterRequest, granted]
    · intro undefined
      have refused := withStart_eq_error undefined
      refine ⟨refused, ?_⟩
      rw [afterRequest, refused]
  · intro first second
    constructor
    · constructor
      · intro same
        exact ⟨congrArg _ same, congrArg _ same⟩
      · intro same
        exact eq_of_productions_start same.1 same.2
    · constructor
      · intro same
        subst same
        exact ⟨rfl, fun _ => rfl, rfl, rfl, rfl⟩
      · intro same
        exact eq_of_productions_start same.productions same.start

/-- Two heads in turn, of which the second is made the start symbol after a
request for a terminal, which is refused. -/
theorem alternating_presents :
    let productions : List Production := [
      ⟨.nonterminal 'S', [.terminal 'a', .nonterminal 'A']⟩, ⟨.nonterminal 'A', [.terminal 'b']⟩,
      ⟨.nonterminal 'S', [.terminal 'c']⟩]
    ∃ grammar current : Grammar, ofProductions productions = .ok grammar ∧
      [.terminal 'a', .nonterminal 'A', .nonterminal 'X'].foldl afterRequest grammar = current ∧
      current.Presents productions ∧ current.start = .nonterminal 'A' ∧
      current.heads = [.nonterminal 'S', .nonterminal 'A'] ∧
      current.symbolsByKind =
        [.nonterminal 'S', .nonterminal 'A', .terminal 'a', .terminal 'b', .terminal 'c'] := by
  intro productions
  have made : ∃ grammar, ofProductions productions = .ok grammar := by
    apply (ofProductions_presents productions).1.mpr
    refine ⟨List.cons_ne_nil _ _, ?_⟩
    simp only [← Production.defect?_eq_none_iff]
    decide
  obtain ⟨grammar, made⟩ := made
  obtain ⟨_, presented⟩ := (ofProductions_presents productions).2.2.1 grammar made
  obtain ⟨presents, start_eq, _⟩ := presented [.terminal 'a', .nonterminal 'A', .nonterminal 'X']
  refine ⟨grammar, _, made, rfl, presents, ?_, ?_, ?_⟩
  · have granted : [.terminal 'a', .nonterminal 'A', .nonterminal 'X'].filter grammar.isDefined =
        [.nonterminal 'A'] := by
      simp [isDefined, (ofProductions_eq_ok_iff.mp made).1, productions]
    rw [start_eq, granted]
    rfl
  · rw [heads, presents.productions_eq]
    decide
  · rw [symbolsByKind, symbols, presents.productions_eq]
    decide

end Requests

end Grammar

end PrecedenceGrammar
