import Mathlib.Data.List.DropRight
import PrecedenceGrammar.Source.FileTree

/-!
# What reading and writing do to a file tree

A path names a file of the working directory when its last piece is a name and
the pieces before it stay where they are.  Writing succeeds at these paths only,
whatever files there are; it puts the bytes under the name and leaves every
other file alone.  So a file tree is a lawful file system.
-/

namespace PrecedenceGrammar

/-- A piece of a path that stays in its directory. -/
def Path.Stays (piece : List Char) : Prop :=
  piece = [] ∨ piece = ['.']

/-- A piece that neither stays in its directory nor leads out of it. -/
def Path.IsName (piece : List Char) : Prop :=
  piece ≠ [] ∧ piece ≠ ['.'] ∧ piece ≠ ['.', '.']

/-- The path leads to the file of this name in the working directory, whether
there is one or not. -/
def Path.Names (path : Path) (name : List Char) : Prop :=
  path.isAbsolute = false ∧ IsName name ∧
    ∃ before, path.pieces = before ++ [name] ∧ ∀ piece ∈ before, Stays piece

namespace FileTree

open PrecedenceGrammar.Path (Stays IsName)

/-- The name of the file that is or could be at a place. -/
def Place.fileName? : Place → Option (List Char)
  | .file name => some name
  | .missingFile name => some name
  | _ => none

variable {tree written : FileTree} {place : Place} {path : Path} {piece name : List Char}
  {pieces : List (List Char)} {bytes : ByteArray}

theorem Place.enter_eq_workingDirectory_iff :
    place.enter tree piece = .workingDirectory ↔ place = .workingDirectory ∧ Stays piece := by
  cases place with
  | workingDirectory =>
      simp only [enter, Stays]
      grind
  | otherDirectory =>
      simp only [enter]
      split <;> simp
  | _ => simp [enter]

theorem Place.enter_workingDirectory
    (isName : IsName name) :
    Place.workingDirectory.enter tree name =
      if (tree.contents? name).isSome then .file name else .missingFile name := by
  obtain ⟨nonempty, notDot, notParent⟩ := isName
  simp [enter, nonempty, notDot, notParent]

theorem Place.fileName?_enter_eq_some
    (named : (place.enter tree piece).fileName? = some name) :
    place = .workingDirectory ∧ piece = name ∧ IsName name := by
  cases place with
  | workingDirectory =>
      simp only [enter] at named
      unfold IsName
      grind [Place.fileName?]
  | otherDirectory =>
      simp only [enter] at named
      split at named <;> cases named
  | _ => cases named

theorem foldl_enter_eq_workingDirectory_iff :
    pieces.foldl (Place.enter tree) place = .workingDirectory ↔
      place = .workingDirectory ∧ ∀ piece ∈ pieces, Stays piece := by
  induction pieces generalizing place with
  | nil => simp
  | cons first later induction =>
      rw [List.foldl_cons, induction, Place.enter_eq_workingDirectory_iff, List.forall_mem_cons,
        and_assoc]

theorem fileName?_follow_eq_some
    (named : (tree.follow path path.pieces).fileName? = some name) :
    path.Names name := by
  unfold follow at named
  obtain empty | ⟨before, last, split⟩ := List.eq_nil_or_concat' path.pieces
  · rw [empty, List.foldl_nil] at named
    split at named <;> cases named
  · rw [split, List.foldl_append] at named
    obtain ⟨inside, rfl, isName⟩ := Place.fileName?_enter_eq_some named
    obtain ⟨origin, stays⟩ := foldl_enter_eq_workingDirectory_iff.mp inside
    refine ⟨?_, isName, before, split, stays⟩
    by_contra absolute
    rw [if_pos (eq_true_of_ne_false absolute)] at origin
    cases origin

theorem follow_eq_of_names
    (names : path.Names name) :
    tree.follow path path.pieces =
      if (tree.contents? name).isSome then .file name else .missingFile name := by
  obtain ⟨relative, isName, before, split, stays⟩ := names
  have inside : before.foldl (Place.enter tree) .workingDirectory = .workingDirectory :=
    foldl_enter_eq_workingDirectory_iff.mpr ⟨rfl, stays⟩
  rw [follow, relative, split, List.foldl_append]
  simp only [Bool.false_eq_true, if_false, inside]
  exact Place.enter_workingDirectory isName

theorem fileName?_follow_eq_some_iff :
    (tree.follow path path.pieces).fileName? = some name ↔ path.Names name := by
  refine ⟨fileName?_follow_eq_some, fun names => ?_⟩
  rw [follow_eq_of_names names]
  split <;> rfl

theorem isEmpty_text_of_names
    (names : path.Names name) :
    path.text.isEmpty = false := by
  obtain ⟨_, ⟨nonempty, _⟩, before, split, _⟩ := names
  by_contra empty
  have text_eq : path.text = "" := String.isEmpty_iff.mp (eq_true_of_ne_false empty)
  have last_eq := congrArg List.getLast? split
  rw [Path.pieces, text_eq, List.getLast?_concat] at last_eq
  cases last_eq
  exact nonempty rfl

theorem read_eq_ok_iff_follow :
    tree.read path = .ok bytes ↔
      path.text.isEmpty = false ∧
        ∃ name, tree.follow path path.pieces = .file name ∧
          tree.contents? name = some bytes := by
  unfold read
  cases path.text.isEmpty with
  | true => simp
  | false =>
      cases found : tree.follow path path.pieces with
      | file name => cases held : tree.contents? name <;> simp [held]
      | _ => simp

/-- Only the files of the working directory are read. -/
theorem read_eq_ok_iff :
    tree.read path = .ok bytes ↔
      ∃ name, path.Names name ∧ tree.contents? name = some bytes := by
  rw [read_eq_ok_iff_follow]
  constructor
  · intro done
    obtain ⟨_, name, place, held⟩ := done
    have named : (tree.follow path path.pieces).fileName? = some name := by
      rw [place, Place.fileName?]
    exact ⟨name, fileName?_follow_eq_some named, held⟩
  · intro done
    obtain ⟨name, names, held⟩ := done
    have place : tree.follow path path.pieces = .file name := by
      rw [follow_eq_of_names names, held]
      rfl
    exact ⟨isEmpty_text_of_names names, name, place, held⟩

/-- A path is written at the name that its pieces lead to, once the empty ones
at its end are left out, but not when there are any. -/
theorem write_eq_ok_iff_follow :
    tree.write path bytes = .ok written ↔
      path.text.isEmpty = false ∧ path.pieces.rdropWhile (·.isEmpty) = path.pieces ∧
        ∃ name, (tree.follow path path.pieces).fileName? = some name ∧
          written = tree.put name bytes := by
  unfold write
  rw [show (path.pieces.reverse.dropWhile (·.isEmpty)).reverse =
    path.pieces.rdropWhile (·.isEmpty) from rfl]
  by_cases whole : path.pieces.rdropWhile (·.isEmpty) = path.pieces
  · rw [whole]
    cases path.text.isEmpty <;> cases found : tree.follow path path.pieces <;>
      simp [found, Place.fileName?, eq_comm]
  · have short := List.rdropWhile_prefix (·.isEmpty) path.pieces
    have shorter : (path.pieces.rdropWhile (·.isEmpty)).length < path.pieces.length :=
      lt_of_le_of_ne short.length_le fun same => whole (short.eq_of_length same)
    cases path.text.isEmpty <;>
      cases found : tree.follow path (path.pieces.rdropWhile (·.isEmpty)) <;>
        simp [found, shorter, whole]

/-- Writing succeeds at the paths of files in the working directory, and only
there. -/
theorem write_eq_ok_iff :
    tree.write path bytes = .ok written ↔
      ∃ name, path.Names name ∧ written = tree.put name bytes := by
  simp only [write_eq_ok_iff_follow, fileName?_follow_eq_some_iff]
  constructor
  · rintro ⟨_, _, put⟩
    exact put
  · rintro ⟨name, names, rfl⟩
    obtain ⟨_, ⟨nonempty, _⟩, before, split, _⟩ := id names
    have kept : path.pieces.rdropWhile (·.isEmpty) = path.pieces := by
      rw [split, List.rdropWhile_concat_neg]
      simpa using nonempty
    exact ⟨isEmpty_text_of_names names, kept, name, names, rfl⟩

theorem contents?_put_self : (tree.put name bytes).contents? name = some bytes :=
  List.lookup_cons_self

theorem contents?_put_of_ne
    {other : List Char} (different : other ≠ name) :
    (tree.put name bytes).contents? other = tree.contents? other := by
  unfold put contents?
  dsimp only
  rw [List.lookup_cons, beq_false_of_ne different]
  dsimp only
  induction tree.files with
  | nil => rfl
  | cons file later induction =>
      obtain ⟨key, kept⟩ := file
      by_cases same : key = name
      · subst same
        simpa [List.lookup_cons, beq_false_of_ne different] using induction
      · by_cases found : other = key
        · simp [found, same]
        · simpa [List.lookup_cons, same, beq_false_of_ne found] using induction

/-- A file tree that cannot be written at a path is kept. -/
theorem fileSystem_write_eq_iff
    {outcome : Except FileError Unit} :
    FileSystem.write tree path bytes = (outcome, written) ↔
      outcome = .ok () ∧ tree.write path bytes = .ok written ∨
        ∃ error, outcome = .error error ∧ tree.write path bytes = .error error ∧
          written = tree := by
  simp only [FileSystem.write]
  cases tree.write path bytes with
  | ok put => simp [eq_comm]
  | error error => simp [eq_comm]

/-- The file that a path leads to is the one that it names. -/
instance : LawfulFileSystem FileTree where
  File := List Char
  contents? := contents?
  LeadsTo _ path name := path.Names name
  read_eq_ok_iff := read_eq_ok_iff
  write_failed := by
    intro tree left path bytes error refused
    obtain ⟨impossible, _⟩ | ⟨_, _, _, kept⟩ := fileSystem_write_eq_iff.mp refused
    · cases impossible
    · exact kept
  write_done := by
    intro tree written path bytes done
    obtain ⟨_, wrote⟩ | ⟨_, impossible, _⟩ := fileSystem_write_eq_iff.mp done
    · obtain ⟨name, names, rfl⟩ := write_eq_ok_iff.mp wrote
      exact ⟨name, names, contents?_put_self, fun _ different => contents?_put_of_ne different⟩
    · cases impossible

end FileTree

end PrecedenceGrammar
