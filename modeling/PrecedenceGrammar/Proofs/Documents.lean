import Mathlib.Data.List.Forall2
import Mathlib.Data.List.TakeWhile
import PrecedenceGrammar.Proofs.GrammarViews
import PrecedenceGrammar.Proofs.RuleLines
import PrecedenceGrammar.Source.Document

/-!
# Documents line by line

What a document is read as depends on its lines one by one: either every
malformed rule line is reported, in order and for its first defect, or there is
no rule at all, or each rule line declares one production.
-/

namespace PrecedenceGrammar

namespace Document

open RuleLine (isWellFormed Declares FirstDefect)

/-- The lines before the first empty one, and the lines after it. -/
inductive UpToEmpty : List Text → List Text → List Text → Prop where
  | all {block : List Text} (full : ∀ line ∈ block, line ≠ []) : UpToEmpty block block []
  | ended {block after : List Text} (full : ∀ line ∈ block, line ≠ []) :
      UpToEmpty (block ++ [] :: after) block after

theorem UpToEmpty.cons
    {line : Text} {lines block after : List Text} (nonempty : line ≠ [])
    (split : UpToEmpty lines block after) :
    UpToEmpty (line :: lines) (line :: block) after := by
  cases split with
  | all full => exact .all (List.forall_mem_cons.mpr ⟨nonempty, full⟩)
  | ended full =>
      rw [← List.cons_append]
      exact .ended (List.forall_mem_cons.mpr ⟨nonempty, full⟩)

theorem exists_upToEmpty (lines : List Text) : ∃ block after, UpToEmpty lines block after := by
  induction lines with
  | nil => exact ⟨[], [], .all (List.forall_mem_nil _)⟩
  | cons line later induction =>
      by_cases empty : line = []
      · subst empty
        rw [← List.nil_append ([] :: later)]
        exact ⟨[], later, .ended (List.forall_mem_nil _)⟩
      · obtain ⟨block, after, split⟩ := induction
        exact ⟨line :: block, after, split.cons empty⟩

theorem UpToEmpty.full
    {lines block after : List Text} (split : UpToEmpty lines block after) :
    ∀ line ∈ block, line ≠ [] := by
  cases split with
  | all full => exact full
  | ended full => exact full

/-- The numbers run on through the empty line. -/
theorem UpToEmpty.block_zipIdx
    {lines blockLines after : List Text} (split : UpToEmpty lines blockLines after)
    (start : Nat) :
    block (lines.zipIdx start) = blockLines.zipIdx start ∧
      afterBlock (lines.zipIdx start) = after.zipIdx (start + blockLines.length + 1) := by
  have full : ∀ line ∈ blockLines.zipIdx start, (!line.1.isEmpty) = true := by
    intro line member
    have nonempty := split.full line.1 (List.fst_mem_of_mem_zipIdx member)
    simpa using nonempty
  cases split with
  | all _ =>
      rw [block, afterBlock, List.takeWhile_eq_self_iff.mpr full,
        List.dropWhile_eq_nil_iff.mpr full]
      exact ⟨rfl, rfl⟩
  | ended _ =>
      rw [List.zipIdx_append, List.zipIdx_cons, block, afterBlock,
        List.takeWhile_append_of_pos full, List.dropWhile_append_of_pos full]
      simp

/-- The numbered rule lines of a document, and its numbered texts to parse. -/
inductive Layout (lines : List Text) : List (Text × Nat) → List (Text × Nat) → Prop where
  | blocks {ruleBlock testBlock after ignored : List Text}
      (ruleSplit : UpToEmpty (lines.map Text.trimEnd) ruleBlock after)
      (testSplit : UpToEmpty after testBlock ignored) :
      Layout lines
        ((ruleBlock.zipIdx 1).filter fun line => line.1.head? != some ';')
        (testBlock.zipIdx (ruleBlock.length + 2))

theorem lines_of_upToEmpty
    {lines ruleBlock after testBlock ignored : List Text}
    (ruleSplit : UpToEmpty (lines.map Text.trimEnd) ruleBlock after)
    (testSplit : UpToEmpty after testBlock ignored) :
    ruleLines lines = (ruleBlock.zipIdx 1).filter (fun line => line.1.head? != some ';') ∧
      testLines lines = testBlock.zipIdx (ruleBlock.length + 2) := by
  obtain ⟨rules_eq, after_eq⟩ := ruleSplit.block_zipIdx 1
  obtain ⟨tests_eq, _⟩ := testSplit.block_zipIdx (1 + ruleBlock.length + 1)
  rw [ruleLines, testLines, numberedLines, rules_eq, after_eq, tests_eq,
    show 1 + ruleBlock.length + 1 = ruleBlock.length + 2 by omega]
  exact ⟨rfl, rfl⟩

theorem layout (lines : List Text) : Layout lines (ruleLines lines) (testLines lines) := by
  obtain ⟨ruleBlock, after, ruleSplit⟩ := exists_upToEmpty (lines.map Text.trimEnd)
  obtain ⟨testBlock, ignored, testSplit⟩ := exists_upToEmpty after
  obtain ⟨rules_eq, tests_eq⟩ := lines_of_upToEmpty ruleSplit testSplit
  rw [rules_eq, tests_eq]
  exact .blocks ruleSplit testSplit

theorem ruleLines_trimmed
    {lines : List Text} {line : Text × Nat} (member : line ∈ ruleLines lines) :
    line.1.getLast? ≠ some ' ' := by
  intro ends
  have numbered : line ∈ (lines.map Text.trimEnd).zipIdx 1 :=
    List.takeWhile_subset _ (List.mem_of_mem_filter member)
  obtain ⟨text, _, trimmed⟩ := List.mem_map.mp (List.fst_mem_of_mem_zipIdx numbered)
  rw [← trimmed] at ends
  have visible := Text.trimmed_trimEnd text _ ends
  cases visible

def malformed (lines : List (Text × Nat)) : List (Text × Nat) :=
  lines.filter fun line => !isWellFormed line.1

/-- One error for each line, in order: the first defect of the line, at its
number. -/
def Reported (path : Path) : List (Text × Nat) → List (Located LoadError) → Prop :=
  List.Forall₂ fun line error =>
    error.location = ⟨path, line.2⟩ ∧ FirstDefect line.1 error.error

theorem reported_lineErrors
    (path : Path) {lines : List (Text × Nat)}
    (trimmed : ∀ line ∈ lines, line.1.getLast? ≠ some ' ') :
    Reported path (malformed lines) (lineErrors path lines) := by
  induction lines with
  | nil => exact .nil
  | cons line later induction =>
      obtain ⟨text, number⟩ := line
      obtain ⟨ended, laterTrimmed⟩ := List.forall_mem_cons.mp trimmed
      have rest := induction laterTrimmed
      cases wellFormed : isWellFormed text with
      | true =>
          obtain ⟨production, declares⟩ := RuleLine.isWellFormed_iff.mp wellFormed
          rw [malformed, List.filter_cons_of_neg (by simp [wellFormed]), lineErrors,
            List.filterMap_cons]
          simp only [declares.read_eq]
          exact rest
      | false =>
          obtain ⟨error, defect⟩ := RuleLine.exists_firstDefect wellFormed ended
          rw [malformed, List.filter_cons_of_pos (by simp [wellFormed]), lineErrors,
            List.filterMap_cons]
          simp only [defect.read_eq]
          exact .cons ⟨rfl, defect⟩ rest

/-- Each line is read as the production of one rule, which is located at it. -/
def ReadAs (path : Path) : List (Text × Nat) → List LocatedRule → Prop :=
  List.Forall₂ fun line rule =>
    RuleLine.read line.1 = .ok rule.production ∧ rule.location = ⟨path, line.2⟩

theorem readAs_iff
    {path : Path} {lines : List (Text × Nat)} {located : List LocatedRule} :
    ReadAs path lines located ↔ lineErrors path lines = [] ∧ rules path lines = located := by
  induction lines generalizing located with
  | nil =>
      rw [ReadAs, List.forall₂_nil_left_iff]
      simp [lineErrors, rules, eq_comm]
  | cons line later induction =>
      obtain ⟨text, number⟩ := line
      rw [ReadAs, List.forall₂_cons_left_iff, lineErrors, rules, List.filterMap_cons,
        List.filterMap_cons]
      cases isRead : RuleLine.read text with
      | error error => simp [isRead]
      | ok production =>
          simp only [isRead]
          constructor
          · intro readAs
            obtain ⟨⟨_, _⟩, rest, ⟨same, rfl⟩, laterRead, rfl⟩ := readAs
            cases same
            obtain ⟨no_errors, rules_eq⟩ := induction.mp laterRead
            exact ⟨no_errors, congrArg _ rules_eq⟩
          · intro readAs
            obtain ⟨no_errors, rfl⟩ := readAs
            exact ⟨_, _, ⟨rfl, rfl⟩, induction.mpr ⟨no_errors, rfl⟩, rfl⟩

variable (path : Path) {lines : List Text}

theorem reported_ruleLines (lines : List Text) :
    Reported path (malformed (ruleLines lines)) (lineErrors path (ruleLines lines)) :=
  reported_lineErrors path fun _ member => ruleLines_trimmed member

theorem ofLines_of_malformed
    (some_malformed : malformed (ruleLines lines) ≠ []) :
    ∃ errors, ofLines path lines = .error errors ∧
      Reported path (malformed (ruleLines lines)) errors := by
  refine ⟨_, ?_, reported_ruleLines path lines⟩
  rw [ofLines]
  split
  · next nothing =>
    have reported := reported_ruleLines path lines
    rw [nothing] at reported
    exact absurd (List.forall₂_nil_right_iff.mp reported) some_malformed
  · rfl

theorem lineErrors_eq_nil
    (none_malformed : malformed (ruleLines lines) = []) :
    lineErrors path (ruleLines lines) = [] := by
  have reported := reported_ruleLines path lines
  rw [none_malformed] at reported
  exact List.forall₂_nil_left_iff.mp reported

theorem ofLines_of_no_rules
    (no_rules : ruleLines lines = []) :
    ofLines path lines = .error [⟨⟨path, 0⟩, .grammar .noProductions⟩] := by
  rw [ofLines, no_rules]
  rfl

/-- A document holds the productions that the rule lines declare, starts with
the head of the first, and has the test lines to parse. -/
structure Holds (document : Document) (path : Path)
    (ruleLines testLines : List (Text × Nat)) : Prop where
  productions : List.Forall₂ (fun line production => Declares line.1 production)
    ruleLines document.grammar.productions
  start : document.grammar.productions.head?.map (·.head) = some document.grammar.start
  tests : List.Forall₂ (fun line test => test.text = line.1 ∧ test.location = ⟨path, line.2⟩)
    testLines document.tests

/-- A document is read if each rule line is read as a rule and the productions of
these rules make a grammar. -/
theorem ofLines_eq_ok_iff
    {document : Document} :
    ofLines path lines = .ok document ↔
      ∃ rules, ReadAs path (ruleLines lines) rules ∧
        Grammar.ofProductions (rules.map (·.production)) = .ok document.grammar ∧
        document.tests = (testLines lines).map (fun line => ⟨line.1, ⟨path, line.2⟩⟩) ∧
        document.warnings = warningsFor rules := by
  simp only [readAs_iff]
  rw [ofLines]
  constructor
  · intro isRead
    split at isRead
    · next no_errors =>
      dsimp only at isRead
      split at isRead
      · next grammar made =>
        cases isRead
        exact ⟨_, ⟨no_errors, rfl⟩, made, rfl, rfl⟩
      · cases isRead
    · cases isRead
  · intro isRead
    obtain ⟨_, ⟨no_errors, rfl⟩, made, tests_eq, warnings_eq⟩ := isRead
    obtain ⟨grammar, tests, warnings⟩ := document
    dsimp only at made tests_eq warnings_eq ⊢
    subst tests_eq warnings_eq
    simp only [no_errors, made]

theorem ofLines_of_wellFormed
    (some_rules : ruleLines lines ≠ [])
    (none_malformed : malformed (ruleLines lines) = []) :
    ∃ document, ofLines path lines = .ok document ∧
      document.Holds path (ruleLines lines) (testLines lines) := by
  have readAs : ReadAs path (ruleLines lines) (rules path (ruleLines lines)) :=
    readAs_iff.mpr ⟨lineErrors_eq_nil path none_malformed, rfl⟩
  have declared : List.Forall₂ (fun line production => Declares line.1 production)
      (ruleLines lines) ((rules path (ruleLines lines)).map (·.production)) :=
    List.forall₂_map_right_iff.mpr
      (readAs.imp fun _ _ found => RuleLine.read_eq_ok_iff.mp found.1)
  have nonempty : (rules path (ruleLines lines)).map (·.production) ≠ [] := by
    intro empty
    rw [empty] at declared
    exact some_rules (List.forall₂_nil_right_iff.mp declared)
  have allWellFormed : ∀ production ∈ (rules path (ruleLines lines)).map (·.production),
      production.WellFormed := by
    have paired := declared.flip.imp fun _ _ declares => And.intro declares.wellFormed declares
    exact ((List.forall₂_and_left _ _).mp paired).1
  obtain ⟨grammar, accepted⟩ :=
    Grammar.exists_ofProductions_eq_ok_iff.mpr ⟨nonempty, allWellFormed⟩
  obtain ⟨kept, start⟩ := Grammar.ofProductions_eq_ok_iff.mp accepted
  refine ⟨⟨grammar, _, _⟩, (ofLines_eq_ok_iff path).mpr ⟨_, readAs, accepted, rfl, rfl⟩, ?_, ?_, ?_⟩
  · rw [kept]
    exact declared
  · rw [kept]
    exact start
  · rw [List.forall₂_map_right_iff, List.forall₂_same]
    exact fun _ _ => ⟨rfl, rfl⟩

theorem ofLines_ne_error_nil : ofLines path lines ≠ .error [] := by
  rw [ofLines]
  split
  · dsimp only
    split <;> simp
  · next some_errors =>
    simpa using some_errors

/-- The malformed rule lines of a document are reported together; without one
only the lack of rule lines is an error, and any other document is read. -/
theorem ofLines_outcome (path : Path) (lines : List Text) :
    ∃ ruleLines testLines, Layout lines ruleLines testLines ∧
      ((∃ errors, ofLines path lines = .error errors ∧
          Reported path (malformed ruleLines) errors) ↔ malformed ruleLines ≠ []) ∧
      (ofLines path lines = .error [⟨⟨path, 0⟩, .grammar .noProductions⟩] ↔ ruleLines = []) ∧
      ((∃ document, ofLines path lines = .ok document ∧
          document.Holds path ruleLines testLines) ↔
        ruleLines ≠ [] ∧ malformed ruleLines = []) := by
  refine ⟨_, _, layout lines, ⟨?reported, ofLines_of_malformed path⟩,
    ⟨?empty, ofLines_of_no_rules path⟩, ⟨?read, fun ⟨some_rules, none_malformed⟩ =>
      ofLines_of_wellFormed path some_rules none_malformed⟩⟩
  case reported =>
    rintro ⟨errors, failed, reported⟩ none_malformed
    rw [none_malformed] at reported
    rw [List.forall₂_nil_left_iff.mp reported] at failed
    exact ofLines_ne_error_nil path failed
  case empty =>
    intro failed
    by_contra some_rules
    by_cases none_malformed : malformed (ruleLines lines) = []
    · obtain ⟨document, read, _⟩ := ofLines_of_wellFormed path some_rules none_malformed
      rw [read] at failed
      cases failed
    · obtain ⟨errors, refused, reported⟩ := ofLines_of_malformed path none_malformed
      rw [refused] at failed
      cases failed
      obtain ⟨line, _, ⟨_, defect⟩, _, _⟩ := List.forall₂_cons_right_iff.mp reported
      generalize line.1 = text at defect
      cases defect
  case read =>
    rintro ⟨document, read, _⟩
    constructor
    · intro no_rules
      rw [ofLines_of_no_rules path no_rules] at read
      cases read
    · by_contra some_malformed
      obtain ⟨errors, refused, _⟩ := ofLines_of_malformed path some_malformed
      rw [refused] at read
      cases read

end Document

end PrecedenceGrammar
