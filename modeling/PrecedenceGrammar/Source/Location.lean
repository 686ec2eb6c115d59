/-!
# Locations

A location is a line of a file or, with the line zero, the file as a whole.
Errors and tests carry the location where they were written, and a located
error is shown with its location in colour.
-/

namespace PrecedenceGrammar

structure Path where
  text : String

namespace Path

/-- The names between the slashes. -/
def pieces (path : Path) : List (List Char) :=
  path.text.toList.splitOn '/'

def isAbsolute (path : Path) : Bool :=
  path.text.toList.head? = some '/'

/-- The names that matter when paths are compared: empty ones never do, and a
dot does only at the start. -/
def components (path : Path) : List (List Char) :=
  match path.pieces with
  | [] => []
  | first :: later =>
    [first].filter (!·.isEmpty) ++
      later.filter fun piece => !piece.isEmpty && piece != ['.']

/-- Two spellings name the same path when they start at the same place and
their components agree. -/
instance : BEq Path where
  beq left right :=
    left.isAbsolute == right.isAbsolute && left.components == right.components

end Path

structure Location where
  file : Path
  line : Nat
  deriving BEq

namespace Location

def wholeFile (file : Path) : Location :=
  ⟨file, 0⟩

def text (location : Location) : String :=
  if location.line = 0 then
    location.file.text
  else
    let file := location.file.text
    let line := location.line
    s!"{file}:{line}"

end Location

structure Located (ε : Type) where
  location : Location
  error : ε
  deriving BEq

/-- The message of a located error after its location in bold red. -/
def Located.display {ε : Type} (message : ε → String) (located : Located ε) : String :=
  let location := located.location.text
  let text := message located.error
  s!"\x1b[31;49;1m[{location}]\x1b[39;49;1m  {text}\x1b[0m"

end PrecedenceGrammar
