import PrecedenceGrammar.Source.Location
import PrecedenceGrammar.Text.Basic

/-!
# Command lines

The arguments name one grammar file and give options in any order.  Reading
goes from left to right and stops at the first thing that is wrong, or at a
request for help or the version.
-/

namespace PrecedenceGrammar

structure Options where
  file : Path
  output : Option Path
  start : Option Char
  amount : Nat
  seed : Option UInt64
  appearanceOrder : Bool

/-- Why there are no options to work with. -/
inductive ArgumentError where
  | usage
  | help
  | version
  deriving DecidableEq

namespace CommandLine

/-- What has been read so far. -/
structure Draft where
  file : Option Path
  output : Option Path
  start : Option Char
  amount : Option Nat
  seed : Option UInt64
  appearanceOrder : Bool

def Draft.blank : Draft := ⟨none, none, none, none, none, false⟩

/-- The options that take a value. -/
inductive ValueOption where
  | output
  | start
  | amount
  | seed
  deriving DecidableEq

inductive Name where
  | value (option : ValueOption)
  | appearanceOrder
  | help
  | version
  deriving DecidableEq

def ofShort? : Char → Option Name
  | 'o' => some (.value .output)
  | 's' => some (.value .start)
  | 'n' => some (.value .amount)
  | 'h' => some .help
  | 'V' => some .version
  | _ => none

def ofLong? (name : Text) : Option Name :=
  match String.ofList name with
  | "output" => some (.value .output)
  | "start" => some (.value .start)
  | "amount" => some (.value .amount)
  | "seed" => some (.value .seed)
  | "appearance-order" => some .appearanceOrder
  | "help" => some .help
  | "version" => some .version
  | _ => none

/-- The number that decimal digits write, if there are only digits and at least
one. -/
def digits? (text : Text) : Option Nat :=
  if text.isEmpty || !text.all (·.isDigit) then
    none
  else
    some (text.foldl (fun number digit => 10 * number + (digit.toNat - '0'.toNat)) 0)

/-- Decimal digits after an optional plus sign. -/
def natural? : Text → Option Nat
  | '+' :: later => digits? later
  | text => digits? text

/-- An amount, which may also be a zero with a minus sign and fits into 32
bits. -/
def amount? (text : Text) : Option Nat :=
  let number :=
    match text with
    | '-' :: later => (digits? later).filter (· == 0)
    | _ => natural? text
  number.filter (· < UInt32.size)

/-- A seed, which fits into 64 bits. -/
def seed? (text : Text) : Option UInt64 :=
  ((natural? text).filter (· < UInt64.size)).map (·.toUInt64)

def path? (text : Text) : Option Path :=
  if text.isEmpty then none else some ⟨String.ofList text⟩

def character? : Text → Option Char
  | [character] => some character
  | _ => none

/-- A field that was not given before takes the value, if that can be read. -/
def once {α : Type} (field value : Option α) (set : Option α → Draft) :
    Except ArgumentError Draft :=
  match field, value with
  | none, some value => .ok (set (some value))
  | _, _ => .error .usage

def Draft.setValue (draft : Draft) (option : ValueOption) (text : Text) :
    Except ArgumentError Draft :=
  match option with
  | .output => once draft.output (path? text) fun value => { draft with output := value }
  | .start => once draft.start (character? text) fun value => { draft with start := value }
  | .amount => once draft.amount (amount? text) fun value => { draft with amount := value }
  | .seed => once draft.seed (seed? text) fun value => { draft with seed := value }

def Draft.setFile (draft : Draft) (text : Text) : Except ArgumentError Draft :=
  once draft.file (path? text) fun value => { draft with file := value }

def isValue : Text → Bool
  | '-' :: _ :: _ => false
  | _ => true

/-- An option with a value attached to it or, without one, the option that
still waits for its value. -/
def Draft.take (draft : Draft) (option : ValueOption) (attached : Option Text) :
    Except ArgumentError (Draft × Option ValueOption) :=
  match attached with
  | some text => (draft.setValue option text).map (·, none)
  | none => .ok (draft, some option)

/-- An argument of two dashes and a name, perhaps with a value after an equals
sign. -/
def Draft.readLong (draft : Draft) (argument : Text) :
    Except ArgumentError (Draft × Option ValueOption) :=
  let name := argument.takeWhile (· != '=')
  let attached :=
    match argument.dropWhile (· != '=') with
    | [] => none
    | _ :: value => some value
  match ofLong? name, attached with
  | some (.value option), _ => draft.take option attached
  | some .appearanceOrder, none =>
    if draft.appearanceOrder then
      .error .usage
    else
      .ok ({ draft with appearanceOrder := true }, none)
  | some .help, none => .error .help
  | some .version, none => .error .version
  | _, _ => .error .usage

/-- The letters after one dash.  The rest of the argument is the value of the
first option that takes one. -/
def Draft.readShort (draft : Draft) : Text → Except ArgumentError (Draft × Option ValueOption)
  | [] => .ok (draft, none)
  | letter :: later =>
    match ofShort? letter, later with
    | some (.value option), [] => draft.take option none
    | some (.value option), '=' :: value => draft.take option (some value)
    | some (.value option), value => draft.take option (some value)
    | some .help, _ => .error .help
    | some .version, _ => .error .version
    | some .appearanceOrder, _ => .error .usage
    | none, _ => .error .usage

def Draft.readArgument (draft : Draft) (argument : Text) :
    Except ArgumentError (Draft × Option ValueOption) :=
  match argument with
  | '-' :: '-' :: later => draft.readLong later
  | '-' :: letter :: later => draft.readShort (letter :: later)
  | text => (draft.setFile text).map (·, none)

/-- The arguments after the options: all of them are files. -/
def Draft.readFiles (draft : Draft) (arguments : List Text) : Except ArgumentError Draft :=
  arguments.foldlM Draft.setFile draft

/-- The arguments from left to right, while an option may wait for its value. -/
def Draft.readArguments (draft : Draft) : Option ValueOption → List Text →
    Except ArgumentError Draft
  | none, [] => .ok draft
  | some _, [] => .error .usage
  | some option, argument :: later =>
    if isValue argument then do
      let draft ← draft.setValue option argument
      draft.readArguments none later
    else
      .error .usage
  | none, argument :: later =>
    if argument = ['-', '-'] then
      draft.readFiles later
    else do
      let (draft, waiting) ← draft.readArgument argument
      draft.readArguments waiting later

end CommandLine

def Options.ofArguments (arguments : List String) : Except ArgumentError Options := do
  let draft ← CommandLine.Draft.blank.readArguments none (arguments.map (·.toList))
  match draft.file with
  | none => throw .usage
  | some file =>
    return {
      file := file
      output := draft.output
      start := draft.start
      amount := draft.amount.getD 0
      seed := draft.seed
      appearanceOrder := draft.appearanceOrder }

end PrecedenceGrammar
