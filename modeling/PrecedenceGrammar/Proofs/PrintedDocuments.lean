import PrecedenceGrammar.Proofs.Documents

/-!
# Printed documents

A line is read as a production exactly if it is that production printed.  So the
document that is printed from productions and texts, with comments among the
rules and white space after any line, is read as these productions and texts.
-/

namespace PrecedenceGrammar

namespace Text

/-- A text with white space after it. -/
def WithBlanks (text line : Text) : Prop :=
  ∃ blanks, (∀ character ∈ blanks, isWhiteSpace character = true) ∧ line = text ++ blanks

theorem WithBlanks.trimEnd_eq
    {text line : Text} (written : text.WithBlanks line) (trimmed : text.Trimmed) :
    trimEnd line = text := by
  obtain ⟨blanks, blank, rfl⟩ := written
  rw [trimEnd_append_of_isWhiteSpace blank, trimEnd_eq_self trimmed]

theorem map_trimEnd_eq
    {texts lines : List Text} (written : List.Forall₂ WithBlanks texts lines)
    (trimmed : ∀ text ∈ texts, text.Trimmed) :
    lines.map trimEnd = texts := by
  induction written with
  | nil => rfl
  | cons first _ induction =>
      obtain ⟨firstTrimmed, laterTrimmed⟩ := List.forall_mem_cons.mp trimmed
      rw [List.map_cons, first.trimEnd_eq firstTrimmed, induction laterTrimmed]

end Text

/-- A production of symbols that are written as one character each. -/
structure Production.Readable (production : Production) : Prop where
  head_isNonterminal : production.head.isNonterminal = true
  body_ne_nil : production.body ≠ []
  symbols_readable : ∀ symbol ∈ production.head :: production.body,
    ∃ character, Symbol.ofChar? character = some symbol

namespace RuleLine

variable {line : Text} {production : Production}

theorem ofChar?_eq_some_iff
    {character : Char} {symbol : Symbol} :
    Symbol.ofChar? character = some symbol ↔
      isBodyCharacter character = true ∧ symbolOf character = symbol := by
  rw [ofChar?_eq]
  split
  · next allowed => simp [allowed]
  · next refused => simp [refused]

theorem text_symbolOf (character : Char) : (symbolOf character).text = [character] := by
  unfold symbolOf
  split <;> rfl

theorem textOf_map_symbolOf (text : Text) : Symbol.textOf (text.map symbolOf) = text := by
  induction text with
  | nil => rfl
  | cons character later induction =>
      rw [Symbol.textOf] at induction ⊢
      rw [List.map_cons, List.flatMap_cons, text_symbolOf, induction, List.singleton_append]

theorem exists_text_of_readable
    {symbols : List Symbol}
    (readable : ∀ symbol ∈ symbols, ∃ character, Symbol.ofChar? character = some symbol) :
    ∃ text : Text, text.map symbolOf = symbols ∧
      ∀ character ∈ text, isBodyCharacter character = true := by
  induction symbols with
  | nil => exact ⟨[], rfl, List.forall_mem_nil _⟩
  | cons symbol later induction =>
      obtain ⟨⟨character, isRead⟩, laterReadable⟩ := List.forall_mem_cons.mp readable
      obtain ⟨allowed, symbol_eq⟩ := ofChar?_eq_some_iff.mp isRead
      obtain ⟨text, text_eq, laterAllowed⟩ := induction laterReadable
      refine ⟨character :: text, ?_, List.forall_mem_cons.mpr ⟨allowed, laterAllowed⟩⟩
      rw [List.map_cons, symbol_eq, text_eq]

/-- A line declares a production exactly if it is that production printed. -/
theorem declares_iff_printed :
    Declares line production ↔ production.Readable ∧ line = print production := by
  constructor
  · intro declares
    obtain ⟨uppercase, nonempty, allowed⟩ := declares
    refine ⟨⟨rfl, by simpa using nonempty, ?_⟩, ?_⟩
    · rw [List.forall_mem_cons]
      constructor
      · refine ⟨_, ofChar?_eq_some_iff.mpr ⟨isBodyCharacter_of_isUppercase uppercase, ?_⟩⟩
        rw [symbolOf, if_pos uppercase]
      · intro symbol member
        obtain ⟨character, inBody, rfl⟩ := List.mem_map.mp member
        exact ⟨character, ofChar?_eq_some_iff.mpr ⟨allowed character inBody, rfl⟩⟩
    · rw [print, textOf_map_symbolOf]
      rfl
  · intro printed
    obtain ⟨⟨isNonterminal, nonempty, readable⟩, rfl⟩ := printed
    obtain ⟨head, body⟩ := production
    obtain ⟨⟨character, isRead⟩, bodyReadable⟩ := List.forall_mem_cons.mp readable
    obtain ⟨_, rfl⟩ := ofChar?_eq_some_iff.mp isRead
    obtain ⟨text, rfl, allowed⟩ := exists_text_of_readable bodyReadable
    have uppercase : isUppercase character = true := by
      by_contra small
      dsimp only at isNonterminal
      rw [symbolOf, if_neg small] at isNonterminal
      cases isNonterminal
    rw [print, textOf_map_symbolOf, text_symbolOf, symbolOf, if_pos uppercase]
    exact .rule uppercase (by simpa using nonempty) allowed

theorem Declares.trimmed
    (declares : Declares line production) :
    line.Trimmed := by
  intro last ends
  obtain ⟨_, nonempty, allowed⟩ := declares
  rw [List.getLast?_cons_cons, List.getLast?_cons_of_ne_nil nonempty] at ends
  have inBody := allowed last (List.mem_of_getLast? ends)
  rw [isBodyCharacter, Bool.and_eq_true, Bool.and_eq_true, Bool.not_eq_true'] at inBody
  exact inBody.1.1

theorem Declares.ne_nil
    (declares : Declares line production) :
    line ≠ [] := by
  obtain ⟨_, _, _⟩ := declares
  exact List.cons_ne_nil _ _

/-- No rule line is taken for a comment. -/
theorem Declares.head?_ne
    (declares : Declares line production) :
    line.head? ≠ some ';' := by
  obtain ⟨uppercase, _, _⟩ := declares
  intro starts
  rw [Option.some.inj starts] at uppercase
  exact absurd uppercase (by decide)

end RuleLine

namespace Document

open Text (WithBlanks)

/-- The printed productions one after another, with comments anywhere among them
and white space after any line. -/
inductive RuleBlock : List Production → List Text → Prop where
  | none : RuleBlock [] []
  | rule {production : Production} {productions : List Production} {line : Text}
      {lines : List Text} (written : WithBlanks (RuleLine.print production) line)
      (later : RuleBlock productions lines) :
      RuleBlock (production :: productions) (line :: lines)
  | comment {productions : List Production} {lines : List Text} (remark : Text)
      (later : RuleBlock productions lines) :
      RuleBlock productions ((';' :: remark) :: lines)

variable {productions : List Production} {lines : List Text}

theorem declares_of_withBlanks
    {production : Production} {line : Text} (readable : production.Readable)
    (written : WithBlanks (RuleLine.print production) line) :
    RuleLine.Declares (Text.trimEnd line) production := by
  have declares := RuleLine.declares_iff_printed.mpr ⟨readable, rfl⟩
  rw [written.trimEnd_eq declares.trimmed]
  exact declares

theorem RuleBlock.full
    (block : RuleBlock productions lines)
    (readable : ∀ production ∈ productions, production.Readable) :
    ∀ line ∈ lines.map Text.trimEnd, line ≠ [] := by
  induction block with
  | none => exact List.forall_mem_nil _
  | rule written _ induction =>
      obtain ⟨firstReadable, laterReadable⟩ := List.forall_mem_cons.mp readable
      rw [List.map_cons, List.forall_mem_cons]
      exact ⟨(declares_of_withBlanks firstReadable written).ne_nil, induction laterReadable⟩
  | comment remark _ induction =>
      rw [List.map_cons, Text.trimEnd_cons remark (by decide), List.forall_mem_cons]
      exact ⟨List.cons_ne_nil _ _, induction readable⟩

/-- Whatever number the first line has, the comments are left out and each other
line is read as the next production. -/
theorem RuleBlock.exists_readAs
    (block : RuleBlock productions lines)
    (readable : ∀ production ∈ productions, production.Readable) (path : Path) (number : Nat) :
    ∃ rules, rules.map (·.production) = productions ∧
      ReadAs path
        (((lines.map Text.trimEnd).zipIdx number).filter fun line => line.1.head? != some ';')
        rules := by
  induction block generalizing number with
  | none => exact ⟨[], rfl, .nil⟩
  | @rule production _ line _ written _ induction =>
      obtain ⟨firstReadable, laterReadable⟩ := List.forall_mem_cons.mp readable
      obtain ⟨rules, productions_eq, readAs⟩ := induction laterReadable (number + 1)
      have declares := declares_of_withBlanks firstReadable written
      refine ⟨⟨production, ⟨path, number⟩⟩ :: rules, congrArg _ productions_eq, ?_⟩
      rw [List.map_cons, List.zipIdx_cons,
        List.filter_cons_of_pos (by simpa using declares.head?_ne)]
      exact .cons ⟨declares.read_eq, rfl⟩ readAs
  | comment remark _ induction =>
      obtain ⟨rules, productions_eq, readAs⟩ := induction readable (number + 1)
      refine ⟨rules, productions_eq, ?_⟩
      rw [List.map_cons, Text.trimEnd_cons remark (by decide), List.zipIdx_cons,
        List.filter_cons_of_neg (by simp)]
      exact readAs

/-- The rule block and the texts of a printed document are found again. -/
theorem lines_of_printed
    {ruleBlock testBlock tests : List Text} {separator : Text}
    (full : ∀ line ∈ ruleBlock.map Text.trimEnd, line ≠ []) (blank : WithBlanks [] separator)
    (written : List.Forall₂ WithBlanks tests testBlock)
    (trimmed : ∀ test ∈ tests, test ≠ [] ∧ test.Trimmed) :
    ruleLines (ruleBlock ++ separator :: testBlock) =
        ((ruleBlock.map Text.trimEnd).zipIdx 1).filter (fun line => line.1.head? != some ';') ∧
      testLines (ruleBlock ++ separator :: testBlock) = tests.zipIdx (ruleBlock.length + 2) := by
  have separated : Text.trimEnd separator = [] := blank.trimEnd_eq nofun
  have tests_eq := Text.map_trimEnd_eq written fun test member => (trimmed test member).2
  have ruleSplit : UpToEmpty ((ruleBlock ++ separator :: testBlock).map Text.trimEnd)
      (ruleBlock.map Text.trimEnd) tests := by
    rw [List.map_append, List.map_cons, separated, tests_eq]
    exact .ended full
  have testSplit : UpToEmpty tests tests [] := .all fun test member => (trimmed test member).1
  have found := lines_of_upToEmpty ruleSplit testSplit
  rwa [List.length_map] at found

/-- Reading undoes printing: the productions and the texts of a printed document
come back, each text at its own line.  And printing undoes reading: a line that is
read as a production is this production printed. -/
theorem ofLines_printed (path : Path) :
    (∀ {productions : List Production} {tests ruleBlock testBlock : List Text} {separator : Text},
      productions ≠ [] → (∀ production ∈ productions, production.Readable) →
      (∀ test ∈ tests, test ≠ [] ∧ test.Trimmed) →
      RuleBlock productions ruleBlock → WithBlanks [] separator →
      List.Forall₂ WithBlanks tests testBlock →
      ∃ document, ofLines path (ruleBlock ++ separator :: testBlock) = .ok document ∧
        document.grammar.productions = productions ∧
        productions.head?.map (·.head) = some document.grammar.start ∧
        document.tests = (tests.zipIdx (ruleBlock.length + 2)).map
          fun line => ⟨line.1, ⟨path, line.2⟩⟩) ∧
    ∀ line production, RuleLine.read line = .ok production ↔
      production.Readable ∧
        line = production.head.text ++ ' ' :: Symbol.textOf production.body := by
  constructor
  · intro productions tests ruleBlock testBlock separator nonempty readable trimmed block blank
      written
    obtain ⟨ruleLines_eq, testLines_eq⟩ :=
      lines_of_printed (block.full readable) blank written trimmed
    obtain ⟨rules, productions_eq, readAs⟩ := block.exists_readAs readable path 1
    have wellFormed : ∀ production ∈ productions, production.WellFormed := by
      intro production member
      exact (RuleLine.declares_iff_printed.mpr ⟨readable production member, rfl⟩).wellFormed
    obtain ⟨grammar, made⟩ := Grammar.exists_ofProductions_eq_ok_iff.mpr ⟨nonempty, wellFormed⟩
    obtain ⟨kept, start⟩ := Grammar.ofProductions_eq_ok_iff.mp made
    refine ⟨⟨grammar, _, _⟩, (ofLines_eq_ok_iff path).mpr ⟨rules, ?_, ?_, ?_, rfl⟩, kept, start,
      rfl⟩
    · rw [ruleLines_eq]
      exact readAs
    · rw [productions_eq]
      exact made
    · rw [testLines_eq]
  · intro line production
    exact RuleLine.read_eq_ok_iff.trans RuleLine.declares_iff_printed

/-- A body and a text that start with a semicolon, beside a comment, and a line of
white space alone that ends the rules. -/
theorem semicolons_ofLines_printed :
    let productions : List Production := [
      ⟨.nonterminal 'S', [.terminal ';', .nonterminal 'Ⅷ']⟩, ⟨.nonterminal 'Ⅷ', [.terminal 'b']⟩]
    let tests : List Text := [[';', ' ', 'b'], ['b']]
    let ruleBlock : List Text := [['S', ' ', ';', 'Ⅷ', '\u3000'], [';', ' '], ['Ⅷ', ' ', 'b']]
    let separator : Text := [' ', '\t']
    let testBlock : List Text := [[';', ' ', 'b'], ['b', ' ']]
    productions ≠ [] ∧ (∀ production ∈ productions, production.Readable) ∧
      (∀ test ∈ tests, test ≠ [] ∧ test.Trimmed) ∧ RuleBlock productions ruleBlock ∧
      WithBlanks [] separator ∧ List.Forall₂ WithBlanks tests testBlock ∧
      ∃ document, ofLines ⟨"semicolons"⟩ (ruleBlock ++ separator :: testBlock) = .ok document ∧
        document.grammar.productions = productions ∧
        document.tests =
          [⟨[';', ' ', 'b'], ⟨⟨"semicolons"⟩, 5⟩⟩, ⟨['b'], ⟨⟨"semicolons"⟩, 6⟩⟩] := by
  intro productions tests ruleBlock separator testBlock
  have nonempty : productions ≠ [] := List.cons_ne_nil _ _
  have readable : ∀ production ∈ productions, production.Readable := by
    have readBack : ∀ production ∈ productions, ∀ symbol ∈ production.head :: production.body,
        Symbol.ofChar? (symbol.text.headD ' ') = some symbol := by
      decide
    have wellFormed : ∀ production ∈ productions, production.WellFormed := by
      simp only [← Production.defect?_eq_none_iff]
      decide
    intro production member
    exact ⟨(wellFormed production member).head_isNonterminal,
      (wellFormed production member).body_ne_nil,
      fun symbol inside => ⟨_, readBack production member symbol inside⟩⟩
  have trimmed : ∀ test ∈ tests, test ≠ [] ∧ test.Trimmed := by
    have kept : ∀ test ∈ tests, test ≠ [] ∧ Text.trimEnd test = test := by decide
    intro test member
    obtain ⟨some_text, same⟩ := kept test member
    exact ⟨some_text, same ▸ test.trimmed_trimEnd⟩
  have block : RuleBlock productions ruleBlock := by
    apply RuleBlock.rule ⟨['\u3000'], List.forall_mem_singleton.mpr (by decide), rfl⟩
    apply RuleBlock.comment
    exact .rule ⟨[], List.forall_mem_nil _, rfl⟩ .none
  have blank : WithBlanks [] separator := by
    refine ⟨separator, ?_, rfl⟩
    simp only [separator, List.forall_mem_cons]
    exact ⟨by decide, by decide, List.forall_mem_nil _⟩
  have written : List.Forall₂ WithBlanks tests testBlock := by
    apply List.Forall₂.cons ⟨[], List.forall_mem_nil _, rfl⟩
    exact .cons ⟨[' '], List.forall_mem_singleton.mpr (by decide), rfl⟩ .nil
  obtain ⟨document, isRead, productions_eq, _, tests_eq⟩ :=
    (ofLines_printed ⟨"semicolons"⟩).1 nonempty readable trimmed block blank written
  exact ⟨nonempty, readable, trimmed, block, blank, written, document, isRead, productions_eq,
    tests_eq⟩

end Document

end PrecedenceGrammar
