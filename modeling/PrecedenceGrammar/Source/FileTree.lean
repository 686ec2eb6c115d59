import PrecedenceGrammar.Source.FileSystem

/-!
# File trees

A working directory that holds plain files only, without directories below it.
A path leads to a place step by step, and reading or writing succeeds or fails
by that place.  Outside of the working directory there are directories but no
files.
-/

namespace PrecedenceGrammar

structure FileTree where
  files : List (List Char × ByteArray)

/-- Where the first pieces of a path lead to. -/
inductive FileTree.Place where
  | workingDirectory
  | otherDirectory
  | file (name : List Char)
  | missingFile (name : List Char)
  | missing
  | insideFile
  deriving DecidableEq

namespace FileTree

def contents? (tree : FileTree) (name : List Char) : Option ByteArray :=
  tree.files.lookup name

def put (tree : FileTree) (name : List Char) (bytes : ByteArray) : FileTree where
  files := (name, bytes) :: tree.files.filter fun file => file.1 != name

/-- The place that the next piece of a path leads to.  An empty piece or a dot
stays in a directory. -/
def Place.enter (tree : FileTree) (place : Place) (piece : List Char) : Place :=
  match place with
  | .workingDirectory =>
    if piece.isEmpty || piece == ['.'] then
      .workingDirectory
    else if piece == ['.', '.'] then
      .otherDirectory
    else if (tree.contents? piece).isSome then
      .file piece
    else
      .missingFile piece
  | .otherDirectory =>
    if piece.isEmpty || piece == ['.'] || piece == ['.', '.'] then
      .otherDirectory
    else
      .missing
  | .file _ => .insideFile
  | .insideFile => .insideFile
  | .missingFile _ => .missing
  | .missing => .missing

/-- The place that the given pieces of a path lead to. -/
def follow (tree : FileTree) (path : Path) (pieces : List (List Char)) : Place :=
  pieces.foldl (Place.enter tree) <|
    if path.isAbsolute then Place.otherDirectory else Place.workingDirectory

def read (tree : FileTree) (path : Path) : Except FileError ByteArray :=
  if path.text.isEmpty then
    .error .notFound
  else
    match tree.follow path path.pieces with
    | .file name => (tree.contents? name).elim (.error .notFound) .ok
    | .workingDirectory => .error .isADirectory
    | .otherDirectory => .error .isADirectory
    | .insideFile => .error .notADirectory
    | .missingFile _ => .error .notFound
    | .missing => .error .notFound

/-- The tree after writing a file at a path.  A path that ends with a slash can
only name a directory. -/
def write (tree : FileTree) (path : Path) (bytes : ByteArray) : Except FileError FileTree :=
  if path.text.isEmpty then
    .error .notFound
  else
    let pieces := (path.pieces.reverse.dropWhile (·.isEmpty)).reverse
    let put (name : List Char) : Except FileError FileTree :=
      if pieces.length < path.pieces.length then
        .error .isADirectory
      else
        .ok (tree.put name bytes)
    match tree.follow path pieces with
    | .file name => put name
    | .missingFile name => put name
    | .workingDirectory => .error .isADirectory
    | .otherDirectory => .error .isADirectory
    | .insideFile => .error .notADirectory
    | .missing => .error .notFound

instance : FileSystem FileTree where
  read := read
  write tree path bytes :=
    match tree.write path bytes with
    | .ok written => (.ok (), written)
    | .error error => (.error error, tree)

end FileTree

end PrecedenceGrammar
