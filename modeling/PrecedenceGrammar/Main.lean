import PrecedenceGrammar.Program

/-!
# Command line program

Reads the grammar file that the arguments name and writes the report to the
standard output or to a file.  Without a seed the choices of the generator come
from the system.
-/

namespace PrecedenceGrammar

/-- A failure of the operating system as the reason for which a file could not
be used. -/
def FileError.ofSystem : IO.Error → FileError
  | .noFileOrDirectory .. => .notFound
  | .inappropriateType _ code _ =>
    if code = 21 || code = -21 then .isADirectory else .notADirectory
  | error => .other (toString error)

instance : MonadSystem IO where
  readFile path := do
    let outcome ← (IO.FS.readBinFile path.text).toBaseIO
    return outcome.mapError .ofSystem
  writeFile path bytes := do
    let outcome ← (IO.FS.writeBinFile path.text bytes).toBaseIO
    return outcome.mapError .ofSystem
  print text := do
    (← IO.getStdout).putStr text
  printError text := do
    (← IO.getStderr).putStr text

/-- The seed to generate with. -/
def chooseSeed : Option UInt64 → IO UInt64
  | some seed => return seed
  | none => do
    let bytes ← IO.getRandomBytes 8
    return bytes.foldl (fun seed byte => seed * 256 + byte.toUInt64) 0

def runOptions (options : Options) : IO UInt32 := do
  let seed ← chooseSeed options.seed
  let exitCode : Nat ← options.execute (WordStream.ofSeed seed)
  return exitCode.toUInt32

def usage : String :=
  "Usage: precedence-grammar [OPTIONS] FILE\n\n" ++
  "  FILE                        the grammar, an empty line, then the texts to parse\n" ++
  "  -o, --output FILE           where to write the table and traces\n" ++
  "  -s, --start SYMBOL          start symbol, by default the head of the first rule\n" ++
  "  -n, --amount AMOUNT         number of random sentences to parse as well\n" ++
  "      --seed SEED             seed for the random sentences\n" ++
  "      --appearance-order      order the table by first appearance\n" ++
  "  -h, --help                  show this text\n" ++
  "  -V, --version               show the version\n"

end PrecedenceGrammar

open PrecedenceGrammar in
def main (arguments : List String) : IO UInt32 := do
  match Options.ofArguments arguments with
  | .ok options => runOptions options
  | .error .help =>
    IO.print usage
    return 0
  | .error .version =>
    IO.println "precedence-grammar 0.1.0"
    return 0
  | .error .usage =>
    IO.eprint usage
    return 2
