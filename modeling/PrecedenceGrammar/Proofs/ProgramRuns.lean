import PrecedenceGrammar.Program
import PrecedenceGrammar.Proofs.Documents
import PrecedenceGrammar.Proofs.FailingSteps
import PrecedenceGrammar.Proofs.FileTrees

/-!
# What a run leaves behind

A run can fail at several points on its way from the grammar file to the
report, and also when the report is written.  Wherever it does, nothing has
been written yet; a run that gets through leaves its whole report in one place.
This is so for all file systems in which a write that fails changes nothing.
-/

namespace PrecedenceGrammar

theorem Document.ofBytes_ne_error_nil
    (path : Path) (bytes : ByteArray) :
    ofBytes path bytes ≠ .error [] := by
  rw [ofBytes]
  split
  · exact ofLines_ne_error_nil path
  · simp

theorem displayErrors_cons
    (error : Located ProgramError) (later : List (Located ProgramError)) :
    displayErrors (error :: later) =
      error.display ProgramError.message ++ "\n" ++ displayErrors later :=
  String.join_cons

namespace Options

variable {Φ σ : Type} [FileSystem Φ] [ChoiceSource σ] (options : Options) (files : Φ) (source : σ)

/-- The document in the grammar file. -/
inductive Loads : Document → Prop where
  | read {bytes : ByteArray} {document : Document}
      (contents : FileSystem.read files options.file = .ok bytes)
      (accepted : Document.ofBytes options.file bytes = .ok document) :
      Loads document

/-- The grammar with the start symbol that is asked for, and all texts to parse
with it: the tests of the document and then the generated sentences. -/
inductive Prepares : Grammar → List TestCase → Prop where
  | generated {document : Document} {grammar : Grammar} {sentences : List TestCase}
      (loads : options.Loads files document)
      (started : options.grammarOf document = .ok grammar)
      (generated : options.sentences grammar source = .ok sentences) :
      Prepares grammar (document.tests ++ sentences)

/-- The report with the traces of all texts. -/
inductive Reports : Text → Prop where
  | parsed {grammar : Grammar} {tests : List TestCase} {traces : List Trace}
      (prepares : options.Prepares files source grammar tests)
      (parsed : grammar.traces grammar.analysis.table grammar.analysis.type tests = .ok traces) :
      Reports (Report.text
        ⟨grammar.analysis.table.text (options.alphabet grammar), grammar.analysis.type, traces⟩)

/-- The errors of a run, by the point at which it fails. -/
inductive Fails : List (Located ProgramError) → Prop where
  | unreadable {error : FileError}
      (refused : FileSystem.read files options.file = .error error) :
      Fails [⟨.wholeFile options.file, .load (.file error)⟩]
  | malformed {bytes : ByteArray} {errors : List (Located LoadError)}
      (contents : FileSystem.read files options.file = .ok bytes)
      (refused : Document.ofBytes options.file bytes = .error errors) :
      Fails (errors.map (·.lift .load))
  | unstarted {document : Document} {error : GrammarError}
      (loads : options.Loads files document)
      (refused : options.grammarOf document = .error error) :
      Fails [⟨.wholeFile options.file, .load (.grammar error)⟩]
  | ungenerated {document : Document} {grammar : Grammar} {error : GenerationError}
      (loads : options.Loads files document)
      (started : options.grammarOf document = .ok grammar)
      (refused : options.sentences grammar source = .error error) :
      Fails [⟨.wholeFile options.file, .generate error⟩]
  | unparsed {grammar : Grammar} {tests : List TestCase} {error : Located ParseError}
      (prepares : options.Prepares files source grammar tests)
      (refused : grammar.traces grammar.analysis.table grammar.analysis.type tests =
        .error error) :
      Fails [error.lift .parse]
  | unwritten {text : Text} {path : Path} {error : FileError} {left : Φ}
      (reports : options.Reports files source text)
      (output : options.output = some path)
      (refused : FileSystem.write files path (String.ofList text).toUTF8 = (.error error, left)) :
      Fails [⟨.wholeFile path, .load (.file error)⟩]

/-- The whole report in one place: in the output file if one is asked for, with
all other files as they were, and on the standard output otherwise. -/
inductive Delivers [LawfulFileSystem Φ] (report : String) (result : ProgramResult Φ) : Prop where
  | shown
      (output : options.output = none)
      (shows_report : result.standardOutput = report)
      (unchanged : result.files = files)
  | written {path : Path} {file : LawfulFileSystem.File Φ}
      (output : options.output = some path)
      (shows_nothing : result.standardOutput = "")
      (leads : LawfulFileSystem.LeadsTo result.files path file)
      (contents : FileSystem.read result.files path = .ok report.toUTF8)
      (unchanged : ∀ other, other ≠ file →
        LawfulFileSystem.contents? result.files other = LawfulFileSystem.contents? files other)

variable {options files source}

theorem Fails.ne_nil
    {errors : List (Located ProgramError)} (fails : options.Fails files source errors) :
    errors ≠ [] := by
  cases fails with
  | malformed contents refused =>
      intro empty
      rw [List.map_eq_nil_iff.mp empty] at refused
      exact Document.ofBytes_ne_error_nil _ _ refused
  | _ => exact List.cons_ne_nil _ _

/-- What is shown of a failed run starts with an error and its location. -/
theorem Fails.shown
    {errors : List (Located ProgramError)} (fails : options.Fails files source errors) :
    ∃ error later, options.Fails files source (error :: later) ∧
      displayErrors errors =
        error.display ProgramError.message ++ "\n" ++ displayErrors later := by
  obtain ⟨error, later, rfl⟩ := List.exists_cons_of_ne_nil fails.ne_nil
  exact ⟨error, later, fails, displayErrors_cons error later⟩

theorem reports_of_reportFor
    {text : Text}
    (done : options.reportFor (FileSystem.read files options.file) source = .ok text) :
    options.Reports files source text := by
  obtain ⟨bytes, contents, done⟩ := mapError_bind_eq_ok_iff.mp done
  obtain ⟨document, accepted, done⟩ := mapError_bind_eq_ok_iff.mp done
  obtain ⟨grammar, started, done⟩ := mapError_bind_eq_ok_iff.mp (mapError_eq_ok_iff.mp done)
  obtain ⟨sentences, generated, done⟩ := mapError_bind_eq_ok_iff.mp done
  obtain ⟨traces, parsed, done⟩ := mapError_bind_eq_ok_iff.mp done
  cases done
  exact .parsed (.generated (.read contents accepted) started generated) parsed

theorem fails_of_reportFor
    {errors : List (Located ProgramError)}
    (refused : options.reportFor (FileSystem.read files options.file) source = .error errors) :
    options.Fails files source errors := by
  obtain ⟨error, unread, rfl⟩ | ⟨bytes, contents, refused⟩ :=
    mapError_bind_eq_error_iff.mp refused
  · exact .unreadable unread
  obtain ⟨defects, malformed, rfl⟩ | ⟨document, accepted, refused⟩ :=
    mapError_bind_eq_error_iff.mp refused
  · exact .malformed contents malformed
  have loads : options.Loads files document := .read contents accepted
  obtain ⟨failure, stopped, rfl⟩ := mapError_eq_error_iff.mp refused
  obtain ⟨error, unstarted, rfl⟩ | ⟨grammar, started, stopped⟩ :=
    mapError_bind_eq_error_iff.mp stopped
  · exact .unstarted loads unstarted
  obtain ⟨error, ungenerated, rfl⟩ | ⟨sentences, generated, stopped⟩ :=
    mapError_bind_eq_error_iff.mp stopped
  · exact .ungenerated loads started ungenerated
  obtain ⟨error, unparsed, rfl⟩ | ⟨traces, parsed, stopped⟩ :=
    mapError_bind_eq_error_iff.mp stopped
  · exact .unparsed (.generated loads started generated) unparsed
  · cases stopped

variable (shown complaints : String)

theorem failWith_run
    (files : Φ) (errors : List (Located ProgramError)) :
    (failWith errors : StateM (Session Φ) Nat).run ⟨shown, complaints, files⟩ =
      pure (1, ⟨shown, complaints ++ displayErrors errors, files⟩) :=
  rfl

theorem deliver_run_of_none
    (output : options.output = none) (files : Φ) (report : String) :
    (options.deliver report : StateM (Session Φ) Nat).run ⟨shown, complaints, files⟩ =
      pure (0, ⟨shown ++ report, complaints, files⟩) := by
  rw [deliver, output]
  rfl

theorem deliver_run_of_some
    {path : Path} {report : String} {outcome : Except FileError Unit} {left : Φ}
    (output : options.output = some path)
    (wrote : FileSystem.write files path report.toUTF8 = (outcome, left)) :
    (options.deliver report : StateM (Session Φ) Nat).run ⟨shown, complaints, files⟩ =
      match outcome with
      | .ok () => pure (0, ⟨shown, complaints, left⟩)
      | .error error =>
        (failWith [⟨.wholeFile path, .load (.file error)⟩] : StateM (Session Φ) Nat).run
          ⟨shown, complaints, left⟩ := by
  rw [deliver, output]
  simp only [MonadSystem.writeFile, StateT.run_bind, StateT.run_modifyGet, pure_bind, wrote]
  cases outcome <;> rfl

theorem execute_run
    (options : Options) (files : Φ) (source : σ) :
    (options.execute source : StateM (Session Φ) Nat).run ⟨shown, complaints, files⟩ =
      match options.reportFor (FileSystem.read files options.file) source with
      | .ok text =>
        (options.deliver (String.ofList text) : StateM (Session Φ) Nat).run
          ⟨shown, complaints, files⟩
      | .error errors =>
        (failWith errors : StateM (Session Φ) Nat).run ⟨shown, complaints, files⟩ := by
  rw [execute]
  simp only [MonadSystem.readFile, StateT.run_bind, StateT.run_get, StateT.run_pure, pure_bind]
  cases options.reportFor (FileSystem.read files options.file) source <;> rfl

/-- A run fails with its errors, shows its report, or writes it. -/
theorem run_cases
    [LawfulFileSystem Φ] (options : Options) (files : Φ) (source : σ) :
    (∃ errors, options.Fails files source errors ∧
        options.run files source = ⟨1, "", displayErrors errors, files⟩) ∨
      (∃ text, options.Reports files source text ∧ options.output = none ∧
        options.run files source = ⟨0, String.ofList text, "", files⟩) ∨
      ∃ text path written, options.Reports files source text ∧ options.output = some path ∧
        FileSystem.write files path (String.ofList text).toUTF8 = (.ok (), written) ∧
        options.run files source = ⟨0, "", "", written⟩ := by
  simp only [run, execute_run]
  cases reported : options.reportFor (FileSystem.read files options.file) source with
  | error errors =>
      refine .inl ⟨errors, fails_of_reportFor reported, ?_⟩
      simp only [failWith_run, Id.run_pure, String.empty_append]
  | ok text =>
      have reports := reports_of_reportFor reported
      cases output : options.output with
      | none =>
          refine .inr (.inl ⟨text, reports, rfl, ?_⟩)
          simp only [deliver_run_of_none _ _ output, Id.run_pure, String.empty_append]
      | some path =>
          rcases wrote : FileSystem.write files path (String.ofList text).toUTF8 with
            ⟨error | done, left⟩
          · refine .inl ⟨_, .unwritten reports output wrote, ?_⟩
            simp only [deliver_run_of_some _ _ output wrote, failWith_run, Id.run_pure,
              String.empty_append, LawfulFileSystem.write_failed wrote]
          · refine .inr (.inr ⟨text, path, left, reports, rfl, wrote, ?_⟩)
            simp only [deliver_run_of_some _ _ output wrote, Id.run_pure]

/-- A run that fails shows its errors, at least one, and leaves everything else
as it was.  A run that succeeds shows no error and delivers its report. -/
theorem run_atomic
    [LawfulFileSystem Φ] (options : Options) (files : Φ) (source : σ) :
    let result := options.run files source
    (result.exitCode = 1 ∧ result.standardOutput = "" ∧ result.files = files ∧
        ∃ error later, options.Fails files source (error :: later) ∧
          result.standardError =
            error.display ProgramError.message ++ "\n" ++ displayErrors later) ∨
      (result.exitCode = 0 ∧ result.standardError = "" ∧
        ∃ text, options.Reports files source text ∧
          options.Delivers files (String.ofList text) result) := by
  dsimp only
  obtain ⟨errors, fails, result_eq⟩ | ⟨text, reports, output, result_eq⟩ |
    ⟨text, path, written, reports, output, wrote, result_eq⟩ := run_cases options files source
  · rw [result_eq]
    exact .inl ⟨rfl, rfl, rfl, fails.shown⟩
  · rw [result_eq]
    exact .inr ⟨rfl, rfl, text, reports, .shown output rfl rfl⟩
  · obtain ⟨file, leads, holds, unchanged⟩ := LawfulFileSystem.write_done wrote
    have contents := LawfulFileSystem.read_eq_ok_iff.mpr ⟨file, leads, holds⟩
    rw [result_eq]
    exact .inr ⟨rfl, rfl, text, reports, .written output rfl leads contents unchanged⟩

/-- A tree with a grammar file gets the report, and an empty one shows why not. -/
theorem letters_run_atomic :
    let options : Options := ⟨⟨"letters"⟩, some ⟨"report"⟩, none, 0, none, false⟩
    let files : FileTree := ⟨[("letters".toList, "S a\n".toUTF8)]⟩
    let empty : FileTree := ⟨[]⟩
    let source := WordStream.cycle 0 []
    (∃ text, options.Reports files source text ∧
        options.Delivers files (String.ofList text) (options.run files source)) ∧
      ∃ error later, options.Fails empty source (error :: later) ∧
        (options.run empty source).standardError =
          error.display ProgramError.message ++ "\n" ++ displayErrors later := by
  intro options files empty source
  constructor
  · have succeeds : (options.run files source).exitCode = 0 := by decide +kernel
    obtain ⟨fails, _⟩ | ⟨_, _, delivered⟩ := run_atomic options files source
    · rw [succeeds] at fails
      cases fails
    · exact delivered
  · have fails : (options.run empty source).exitCode = 1 := by decide +kernel
    obtain ⟨_, _, _, shown⟩ | ⟨succeeds, _⟩ := run_atomic options empty source
    · exact shown
    · rw [fails] at succeeds
      cases succeeds

/-- Nothing is written when there is no grammar file. -/
example (source : σ) :
    run ⟨⟨"letters"⟩, some ⟨"report"⟩, none, 0, none, false⟩ (⟨[]⟩ : FileTree) source =
      ⟨1, "",
        "\x1b[31;49;1m[letters]\x1b[39;49;1m  " ++
          "File error: No such file or directory (os error 2)\x1b[0m\n",
        ⟨[]⟩⟩ :=
  rfl

end Options

end PrecedenceGrammar
