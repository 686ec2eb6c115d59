import PrecedenceGrammar.Source.LoadError

/-!
# File systems

Files are read and written by their paths, and both may fail.  A path leads to
a file that is read as what it holds.  A write that fails changes nothing, and
one that succeeds changes nothing but the file that its path leads to.
-/

namespace PrecedenceGrammar

/-- A write comes with the files that it leaves, whether it succeeds or not. -/
class FileSystem (Φ : Type) where
  read : Φ → Path → Except FileError ByteArray
  write : Φ → Path → ByteArray → Except FileError Unit × Φ

/-- What is expected of reading and writing, by the files that paths lead to. -/
class LawfulFileSystem (Φ : Type) [FileSystem Φ] where
  File : Type
  contents? : Φ → File → Option ByteArray
  LeadsTo : Φ → Path → File → Prop
  read_eq_ok_iff {files : Φ} {path : Path} {bytes : ByteArray} :
    FileSystem.read files path = .ok bytes ↔
      ∃ file, LeadsTo files path file ∧ contents? files file = some bytes
  write_failed {files left : Φ} {path : Path} {bytes : ByteArray} {error : FileError} :
    FileSystem.write files path bytes = (.error error, left) → left = files
  write_done {files written : Φ} {path : Path} {bytes : ByteArray} :
    FileSystem.write files path bytes = (.ok (), written) →
      ∃ file, LeadsTo written path file ∧ contents? written file = some bytes ∧
        ∀ other, other ≠ file → contents? written other = contents? files other

end PrecedenceGrammar
