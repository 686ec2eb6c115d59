import Mathlib.Data.List.Forall2
import PrecedenceGrammar.Program
import PrecedenceGrammar.Proofs.ParserInvariant
import PrecedenceGrammar.Proofs.TableText

/-!
# The sections of a report

Splitting a report at its double line feeds gives the table with the type and
then the trace of each test, because no line of either is empty or broken.
-/

namespace PrecedenceGrammar

namespace Text

/-- The pieces of a text between its double line feeds, which are found from
the left. -/
def sections : Text → List Text
  | [] => [[]]
  | '\n' :: '\n' :: later => [] :: sections later
  | character :: later => (sections later).modifyHead (character :: ·)

example : sections ['a', '\n', '\n', '\n', 'b'] = [['a'], ['\n', 'b']] := rfl

theorem sections_cons
    {character : Char} {later : Text}
    (single : character = '\n' → later.head? ≠ some '\n') :
    sections (character :: later) = (sections later).modifyHead (character :: ·) := by
  rw [sections]
  rintro rest rfl rfl
  exact single rfl rfl

theorem sections_append
    {line rest : Text} (unbroken : '\n' ∉ line) :
    sections (line ++ rest) = (sections rest).modifyHead (line ++ ·) := by
  induction line with
  | nil => exact (congrFun List.modifyHead_id _).symm
  | cons character line induction =>
      have visible : character ≠ '\n' := (List.ne_of_not_mem_cons unbroken).symm
      have later := induction (List.not_mem_of_not_mem_cons unbroken)
      rw [List.cons_append, sections_cons fun feed => absurd feed visible, later,
        List.modifyHead_modifyHead]
      rfl

/-- The text of some lines, with line feeds between them only. -/
def ofLines (lines : List Text) : Text :=
  ['\n'].intercalate lines

theorem ofLines_cons_cons (line next : Text) (later : List Text) :
    ofLines (line :: next :: later) = line ++ '\n' :: ofLines (next :: later) := by
  rw [ofLines, List.intercalate_cons_cons, List.append_assoc]
  rfl

theorem ofLines_concat (lines : List Text) (last : Text) :
    ofLines (lines ++ [last]) = lines.flatMap (· ++ ['\n']) ++ last := by
  induction lines with
  | nil => exact List.intercalate_singleton
  | cons line later induction =>
      have nonempty : later ++ [last] ≠ [] := List.concat_ne_nil _ _
      rw [List.cons_append, ofLines, List.intercalate_cons_of_ne_nil nonempty,
        List.flatMap_cons, List.append_assoc (line ++ ['\n']), ← induction]
      rfl

/-- Lines that make a section: there are some, and all of them are full. -/
structure IsBlock (lines : List Text) : Prop where
  nonempty : lines ≠ []
  full : ∀ line ∈ lines, line.IsFullLine

theorem IsFullLine.head?_ne
    {line : Text} (full : line.IsFullLine) (rest : Text) :
    (line ++ rest).head? ≠ some '\n' := by
  obtain ⟨character, later, rfl⟩ := List.exists_cons_of_ne_nil full.nonempty
  intro feed
  cases feed
  exact full.unbroken List.mem_cons_self

theorem IsBlock.head?_ne
    {lines : List Text} (block : IsBlock lines) (rest : Text) :
    (ofLines lines ++ rest).head? ≠ some '\n' := by
  obtain ⟨line, later, rfl⟩ := List.exists_cons_of_ne_nil block.nonempty
  have full := block.full line List.mem_cons_self
  cases later with
  | nil =>
      rw [ofLines, List.intercalate_singleton]
      exact full.head?_ne rest
  | cons next later =>
      rw [ofLines_cons_cons, List.append_assoc]
      exact full.head?_ne _

/-- A block stays in one piece, since its line feeds stand alone. -/
theorem IsBlock.sections_append
    {lines : List Text} (block : IsBlock lines) (rest : Text) :
    sections (ofLines lines ++ rest) = (sections rest).modifyHead (ofLines lines ++ ·) := by
  obtain ⟨nonempty, full⟩ := block
  induction lines with
  | nil => exact absurd rfl nonempty
  | cons line later induction =>
      obtain ⟨first, laterFull⟩ := List.forall_mem_cons.mp full
      cases later with
      | nil =>
          rw [ofLines, List.intercalate_singleton]
          exact Text.sections_append first.unbroken
      | cons next later =>
          have laterBlock : IsBlock (next :: later) := ⟨List.cons_ne_nil _ _, laterFull⟩
          rw [ofLines_cons_cons, List.append_assoc, Text.sections_append first.unbroken,
            List.cons_append, sections_cons fun _ => laterBlock.head?_ne rest,
            induction laterBlock.nonempty laterFull, List.modifyHead_modifyHead,
            List.modifyHead_modifyHead]
          congr 1
          funext piece
          simp

theorem IsBlock.sections_cons
    {lines : List Text} (block : IsBlock lines) (rest : Text) :
    sections (ofLines lines ++ '\n' :: '\n' :: rest) = ofLines lines :: sections rest := by
  rw [block.sections_append, sections, List.modifyHead_cons, List.append_nil]

theorem IsBlock.sections_ended
    {lines : List Text} (block : IsBlock lines) :
    sections (ofLines lines ++ ['\n']) = [ofLines lines ++ ['\n']] := by
  rw [block.sections_append]
  rfl

theorem IsBlock.splitOn_ofLines
    {lines : List Text} (block : IsBlock lines) :
    (ofLines lines).splitOn '\n' = lines :=
  List.splitOn_intercalate '\n' (fun line member => (block.full line member).unbroken)
    block.nonempty

end Text

open Text (ofLines IsBlock)

/-- The lines of a trace as they stand in a report. -/
def Trace.text (trace : Trace) : Text :=
  ofLines trace.lines

namespace Configuration

/-- No symbol on the stack or in the input is shown with a line feed. -/
structure Unbroken (configuration : Configuration) : Prop where
  stack : ∀ entry ∈ configuration.stack, '\n' ∉ entry.symbol.text
  input : ∀ symbol ∈ configuration.input, '\n' ∉ symbol.text

theorem unbroken_initial
    {symbols : List Symbol} (unbroken : ∀ symbol ∈ symbols, '\n' ∉ symbol.text) :
    (initial symbols).Unbroken where
  stack := List.forall_mem_nil _
  input := List.forall_mem_append.mpr
    ⟨unbroken, List.forall_mem_singleton.mpr Symbol.isVisible_endMarker.unbroken⟩

theorem Moves.unbroken
    {grammar : Grammar} {table : Table} {configuration next : Configuration} {action : Action}
    (heads : ∀ head ∈ grammar.heads, '\n' ∉ head.text)
    (moves : Moves grammar table configuration action next)
    (unbroken : configuration.Unbroken) :
    next.Unbroken := by
  cases moves with
  | shift =>
      obtain ⟨first, rest⟩ := List.forall_mem_cons.mp unbroken.input
      exact ⟨List.forall_mem_cons.mpr ⟨first, unbroken.stack⟩, rest⟩
  | @reduce _ _ _ _ _ head _ _ reduction =>
      obtain ⟨_, _, _, isBody, _, rfl⟩ := Stack.reduce_eq_reduced reduction
      have unbrokenHead := heads head (grammar.mem_heads_of_headOf? isBody)
      refine ⟨List.forall_mem_cons.mpr ⟨unbrokenHead, ?_⟩, unbroken.input⟩
      exact fun entry member => unbroken.stack entry (List.mem_of_mem_drop member)

theorem Unbroken.isFullLine
    {configuration : Configuration} (unbroken : configuration.Unbroken) :
    configuration.text.IsFullLine where
  nonempty := List.cons_ne_nil _ _
  unbroken := by
    intro broken
    rw [text, Stack.text, List.cons_append, List.mem_cons, List.mem_append, List.mem_cons] at broken
    rcases broken with start | onStack | blank | inInput
    · exact absurd start (by decide)
    · obtain ⟨symbol, member, inSymbol⟩ := List.mem_flatMap.mp onStack
      obtain ⟨entry, isEntry, rfl⟩ := List.mem_map.mp (List.mem_reverse.mp member)
      exact unbroken.stack entry isEntry inSymbol
    · exact absurd blank (by decide)
    · obtain ⟨symbol, member, inSymbol⟩ := List.mem_flatMap.mp inInput
      exact unbroken.input symbol member inSymbol

end Configuration

namespace Grammar

variable {grammar : Grammar}

theorem isFullLine_of_mem_lines
    {table : Table} {symbols : List Symbol} {line : Text}
    (heads : ∀ head ∈ grammar.heads, '\n' ∉ head.text)
    (unbroken : ∀ symbol ∈ symbols, '\n' ∉ symbol.text)
    (member : line ∈ (grammar.run table symbols).lines) :
    line.IsFullLine := by
  obtain ⟨configuration, visited, rfl⟩ := List.mem_map.mp member
  have kept := Configuration.forall_mem_run Configuration.Unbroken
    (fun _ _ _ moves => moves.unbroken heads) (Configuration.unbroken_initial unbroken) visited
  exact kept.isFullLine

theorem isBlock_of_parse
    {other : Grammar} {symbols : List Symbol} {trace : Trace}
    (heads : ∀ head ∈ grammar.heads, '\n' ∉ head.text)
    (unbroken : ∀ symbol ∈ symbols, '\n' ∉ symbol.text)
    (parsed : grammar.parse (Table.ofGrammar other) symbols = .ok trace) :
    IsBlock trace.lines := by
  obtain ⟨line, lines_eq, rejected, accepted⟩ := exists_last_line parsed
  have full : line.IsFullLine := by
    cases outcome : trace.outcome with
    | rejected =>
        rw [rejected outcome]
        exact ⟨by decide, by decide⟩
    | accepted =>
        have isHead := (grammar.mem_heads_iff grammar.start).mpr grammar.start_isHead
        rw [accepted outcome]
        refine ⟨List.cons_ne_nil _ _, ?_⟩
        simpa using heads grammar.start isHead
  rw [lines_eq]
  refine ⟨List.concat_ne_nil _ _, List.forall_mem_append.mpr ⟨?_, ?_⟩⟩
  · exact fun _ => isFullLine_of_mem_lines heads unbroken
  · exact List.forall_mem_singleton.mpr full

/-- The traces are those of the tests, each parsed alone. -/
theorem parseTests_eq_ok_iff
    {table : Table} {tests : List TestCase} {traces : List Trace} :
    grammar.parseTests table tests = .ok traces ↔
      List.Forall₂ (fun test trace => grammar.parse table (Symbol.terminals test.text) = .ok trace)
        tests traces := by
  induction tests generalizing traces with
  | nil =>
      rw [List.forall₂_nil_left_iff, parseTests, Except.ok.injEq]
      exact eq_comm
  | cons test later induction =>
      rw [List.forall₂_cons_left_iff, parseTests, testRun, ← parse]
      cases parsed : grammar.parse table (Symbol.terminals test.text) with
      | error error => simp
      | ok trace =>
          constructor
          · intro all
            cases rest : grammar.parseTests table later with
            | error error =>
                rw [rest] at all
                cases all
            | ok traces =>
                rw [rest] at all
                cases all
                exact ⟨_, _, rfl, induction.mp rest, rfl⟩
          · rintro ⟨_, rest, same, paired, rfl⟩
            cases same
            rw [induction.mpr paired]
            rfl

theorem traces_eq_nil
    {table : Table} {type : GrammarType} {tests : List TestCase} {traces : List Trace}
    (parsed : grammar.traces table type tests = .ok traces)
    (nothing : tests = [] ∨ type = .unsuitable) :
    traces = [] := by
  unfold Grammar.traces at parsed
  split at parsed
  · next allowed =>
    rcases nothing with rfl | rfl
    · exact List.forall₂_nil_left_iff.mp (parseTests_eq_ok_iff.mp parsed)
    · cases allowed
  · cases parsed
    rfl

theorem forall₂_traces
    {table : Table} {type : GrammarType} {tests : List TestCase} {traces : List Trace}
    (parsed : grammar.traces table type tests = .ok traces) (suitable : type ≠ .unsuitable) :
    List.Forall₂ (fun test trace => grammar.parse table (Symbol.terminals test.text) = .ok trace)
      tests traces := by
  have allowed : type.allowsParsing = true := bne_iff_ne.mpr suitable
  rw [Grammar.traces, if_pos allowed] at parsed
  exact parseTests_eq_ok_iff.mp parsed

theorem forall₂_isBlock
    {other : Grammar} {tests : List TestCase} {traces : List Trace}
    (heads : ∀ head ∈ grammar.heads, '\n' ∉ head.text)
    (unbroken : ∀ test ∈ tests, '\n' ∉ test.text)
    (paired : List.Forall₂ (fun test trace =>
      grammar.parse (Table.ofGrammar other) (Symbol.terminals test.text) = .ok trace)
      tests traces) :
    List.Forall₂ (fun test trace =>
      grammar.parse (Table.ofGrammar other) (Symbol.terminals test.text) = .ok trace ∧
        IsBlock trace.lines) tests traces := by
  refine ((List.forall₂_and_left _ _).mpr ⟨unbroken, paired⟩).imp ?_
  rintro test trace ⟨unbroken, alone⟩
  refine ⟨alone, isBlock_of_parse heads ?_ alone⟩
  intro symbol isTerminal feed
  obtain ⟨character, member, rfl⟩ := List.mem_map.mp isTerminal
  cases List.mem_singleton.mp feed
  exact unbroken member

theorem mem_symbols_of_mem_heads
    {head : Symbol} (isHead : head ∈ grammar.heads) :
    head ∈ grammar.symbols := by
  obtain ⟨production, member, head_eq⟩ := (grammar.mem_heads_iff head).mp isHead
  exact (grammar.mem_symbols_iff head).mpr ⟨production, member, Or.inl head_eq.symm⟩

theorem mem_symbols_of_mem_symbolsByKind
    {symbol : Symbol} (member : symbol ∈ grammar.symbolsByKind) :
    symbol ∈ grammar.symbols := by
  rcases List.mem_append.mp member with nonterminal | other
  · exact List.mem_of_mem_filter nonterminal
  · exact List.mem_of_mem_filter other

end Grammar

theorem Options.mem_symbols_of_mem_alphabet
    (options : Options) {grammar : Grammar} {symbol : Symbol}
    (member : symbol ∈ (options.alphabet grammar).getD grammar.symbols) :
    symbol ∈ grammar.symbols := by
  unfold alphabet at member
  split at member
  · exact member
  · exact Grammar.mem_symbols_of_mem_symbolsByKind member

namespace Report

variable {table : Text} {tableLines : List Text}

/-- The first section holds the table and the type. -/
theorem sections_text
    (table_eq : table = tableLines.flatMap (· ++ ['\n']))
    (full : ∀ line ∈ tableLines, line.IsFullLine) (type : GrammarType) (rest : Text) :
    Text.sections (table ++ type.code :: '\n' :: '\n' :: rest) =
      (table ++ [type.code]) :: rest.sections := by
  have codeLine : Text.IsFullLine [type.code] := by
    cases type <;> exact ⟨by decide, by decide⟩
  have block : IsBlock (tableLines ++ [[type.code]]) :=
    ⟨List.concat_ne_nil _ _, List.forall_mem_append.mpr
      ⟨full, List.forall_mem_singleton.mpr codeLine⟩⟩
  have first := block.sections_cons rest
  rw [Text.ofLines_concat, ← table_eq, List.append_assoc] at first
  exact first

theorem sections_without_traces
    (table_eq : table = tableLines.flatMap (· ++ ['\n']))
    (full : ∀ line ∈ tableLines, line.IsFullLine) (type : GrammarType) :
    (text ⟨table, type, []⟩).sections = [table ++ [type.code], []] :=
  sections_text table_eq full type []

/-- Traces with an empty line between them come back one by one, and the last
one keeps the line feed that ends it. -/
theorem sections_traces
    {before : List Trace} {last : Trace}
    (blocks : ∀ trace ∈ before ++ [last], IsBlock trace.lines) :
    Text.sections (['\n', '\n'].intercalate ((before ++ [last]).map Trace.text) ++ ['\n']) =
      before.map Trace.text ++ [last.text ++ ['\n']] := by
  induction before with
  | nil =>
      rw [List.nil_append, List.map_singleton, List.intercalate_singleton]
      exact (List.forall_mem_singleton.mp blocks).sections_ended
  | cons first later induction =>
      obtain ⟨block, rest⟩ := List.forall_mem_cons.mp blocks
      have nonempty : (later ++ [last]).map Trace.text ≠ [] := by simp
      rw [List.cons_append, List.map_cons, List.intercalate_cons_of_ne_nil nonempty,
        List.append_assoc, List.append_assoc]
      exact (block.sections_cons _).trans (congrArg _ (induction rest))

theorem sections_with_traces
    {before : List Trace} {last : Trace}
    (table_eq : table = tableLines.flatMap (· ++ ['\n']))
    (full : ∀ line ∈ tableLines, line.IsFullLine) (type : GrammarType)
    (blocks : ∀ trace ∈ before ++ [last], IsBlock trace.lines) :
    (text ⟨table, type, before ++ [last]⟩).sections =
      (table ++ [type.code]) ::
        (before.map Trace.text ++ [last.text ++ ['\n']]) := by
  have some_traces : (before ++ [last]).isEmpty = false := by simp
  rw [text, some_traces]
  exact (sections_text table_eq full type _).trans (congrArg _ (sections_traces blocks))

end Report

namespace Grammar

/-- A report splits at its double line feeds into the table with the type and,
unless there is nothing to parse, one section for each test, which holds the
lines of the trace that the test has alone.  The line feed that ends the report
stays with the last section. -/
theorem report_sections
    {grammar : Grammar} (options : Options) {tests : List TestCase} {traces : List Trace}
    (readable : ∀ symbol ∈ grammar.symbols,
      ∃ character, Symbol.ofChar? character = some symbol)
    (unbroken : ∀ test ∈ tests, '\n' ∉ test.text)
    (parsed : grammar.traces grammar.analysis.table grammar.analysis.type tests = .ok traces) :
    let table := grammar.analysis.table.text (options.alphabet grammar)
    let type := grammar.analysis.type
    let sections := (Report.text ⟨table, type, traces⟩).sections
    (tests = [] ∨ type = .unsuitable → sections = [table ++ [type.code], []]) ∧
      (tests ≠ [] → type ≠ .unsuitable →
        ∃ before last, sections = (table ++ [type.code]) :: (before ++ [last ++ ['\n']]) ∧
          List.Forall₂ (fun test body => ∃ trace,
            grammar.parse grammar.analysis.table (Symbol.terminals test.text) = .ok trace ∧
              body.splitOn '\n' = trace.lines) tests (before ++ [last])) := by
  intro table type sections
  have visible : ∀ symbol ∈ grammar.symbols, symbol.IsVisible := by
    intro symbol member
    obtain ⟨character, read⟩ := readable symbol member
    exact Symbol.isVisible_of_ofChar? read
  have heads : ∀ head ∈ grammar.heads, '\n' ∉ head.text :=
    fun head isHead => (visible head (mem_symbols_of_mem_heads isHead)).unbroken
  obtain ⟨tableLines, table_eq, full⟩ := Table.exists_text_lines (EndSets.ofGrammar grammar)
    fun symbol member => visible symbol (options.mem_symbols_of_mem_alphabet member)
  constructor
  · intro nothing
    obtain rfl := traces_eq_nil parsed nothing
    exact Report.sections_without_traces table_eq full type
  · intro some_tests suitable
    have paired := forall₂_isBlock heads unbroken (forall₂_traces parsed suitable)
    have blocks : ∀ trace ∈ traces, IsBlock trace.lines :=
      ((List.forall₂_and_left _ _).mp (paired.flip.imp fun _ _ => And.symm)).1
    obtain rfl | ⟨before, last, rfl⟩ := List.eq_nil_or_concat' traces
    · exact absurd (List.forall₂_nil_right_iff.mp paired) some_tests
    · refine ⟨before.map Trace.text, last.text,
        Report.sections_with_traces table_eq full type blocks, ?_⟩
      rw [← List.map_singleton, ← List.map_append, List.forall₂_map_right_iff]
      exact paired.imp fun _ trace ⟨alone, block⟩ => ⟨trace, alone, block.splitOn_ofLines⟩

/-- A report with the table in the order of appearance, on a text that is
accepted and one that is not. -/
theorem sums_report_sections :
    let tests : List TestCase := [⟨['a'], ⟨⟨"sums"⟩, 6⟩⟩, ⟨['+'], ⟨⟨"sums"⟩, 7⟩⟩]
    let traces : List Trace := [
      ⟨[['^', ' ', 'a', '$'], ['^', 'a', ' ', '$'], ['^', 'T', ' ', '$'], ['^', 'E', ' ', '$'],
        ['^', 'E', '$']], .accepted⟩,
      ⟨[['^', ' ', '+', '$'], rejectionLine], .rejected⟩]
    let table := sums.analysis.table.text none
    (∀ symbol ∈ sums.symbols, ∃ character, Symbol.ofChar? character = some symbol) ∧
      (∀ test ∈ tests, '\n' ∉ test.text) ∧
      sums.traces sums.analysis.table sums.analysis.type tests = .ok traces ∧
      ∃ before last, (Report.text ⟨table, sums.analysis.type, traces⟩).sections =
          (table ++ ['W']) :: (before ++ [last ++ ['\n']]) ∧
        List.Forall₂ (fun test body => ∃ trace,
          sums.parse sums.analysis.table (Symbol.terminals test.text) = .ok trace ∧
            body.splitOn '\n' = trace.lines) tests (before ++ [last]) := by
  intro tests traces table
  have readBack : ∀ symbol ∈ sums.symbols,
      Symbol.ofChar? (symbol.text.headD ' ') = some symbol := by
    decide
  have known : ∀ symbol ∈ sums.symbols, ∃ character, Symbol.ofChar? character = some symbol :=
    fun symbol member => ⟨_, readBack symbol member⟩
  have unbroken : ∀ test ∈ tests, '\n' ∉ test.text := by
    simp [tests]
  have weak : sums.analysis.type = .weak := by
    decide +kernel
  have parsed : sums.traces sums.analysis.table sums.analysis.type tests = .ok traces := by
    rw [weak]
    refine parseTests_eq_ok_iff.mpr (.cons ?_ (.cons ?_ .nil)) <;> decide +kernel
  have suitable : sums.analysis.type ≠ .unsuitable := by
    rw [weak]
    decide
  have split := (report_sections ⟨⟨"sums"⟩, none, none, 0, none, true⟩ known unbroken parsed).2
    (List.cons_ne_nil _ _) suitable
  rw [weak] at parsed split ⊢
  exact ⟨known, unbroken, parsed, split⟩

end Grammar

end PrecedenceGrammar
