import TypeProbe.Project.Report

/-!
# Command lines

A command line names a file and a kind of report, with offsets for reports on types, or gives a
whole request as one text; it may also ask that headings are not coloured. `CommandLine.ofWords`
reads it word by word. Words with two dashes in front are options, and an option that takes a value
takes it from behind an equals sign or from the next word; after a word of two dashes alone no word
is an option. What a word gives is taken in when the next one begins, so that of two faults the one
that comes up first is reported.
-/

namespace TypeProbe

/-- Why a command line is not carried out. -/
inductive UsageError where
  /-- It asks how the command is used. -/
  | help
  /-- It asks for the version. -/
  | version
  /-- A word is not expected. -/
  | unknownArgument
  /-- A value is missing, or is none of the possible ones. -/
  | invalidValue
  /-- A value is no number in the range. -/
  | valueValidation
  /-- Something is given twice, or next to what it does not go with. -/
  | argumentConflict
  /-- Something that takes no value is given one. -/
  | tooManyValues
  /-- The file or the kind is missing. -/
  | missingArgument
deriving DecidableEq, Inhabited, Repr

/-- What a command line says. -/
structure CommandLine where
  /-- The file. -/
  file : Option String
  /-- The kind of report. -/
  kind : Option ReportKind
  /-- The offset at which the range starts. -/
  start : Option Nat
  /-- The offset at which the range stops. -/
  stop : Option Nat
  /-- Whether headings are not coloured. -/
  noColor : Bool
  /-- The request as one text. -/
  request : Option String
deriving DecidableEq, Inhabited, Repr

/-- What takes a value on a command line. -/
inductive ValueSlot where
  | file | kind | start | stop | request
deriving DecidableEq, Inhabited, Repr

/-- A whole number that may have a sign. -/
def signedNumber? (word : List Char) : Option Int :=
  let (negative, ds) := match word with
    | '-' :: rest => (true, rest)
    | '+' :: rest => (false, rest)
    | _ => (false, word)
  if ds.isEmpty || !ds.all Char.isDigit then none
  else some (if negative then -(Binary64.digitsValue ds : Int) else Binary64.digitsValue ds)

/-- The offset that a word gives: a number of 32 bits. -/
def offsetOfWord (word : String) : Except UsageError Nat :=
  match signedNumber? word.toList with
  | some n => if 0 ≤ n ∧ n < offsetLimit then .ok n.toNat else .error .valueValidation
  | none => .error .valueValidation

namespace CommandLine

/-- The command line without words. -/
def empty : CommandLine := ⟨none, none, none, none, false, none⟩

/-- Whether something has been given. -/
def has (c : CommandLine) : ValueSlot → Bool
  | .file => c.file.isSome
  | .kind => c.kind.isSome
  | .start => c.start.isSome
  | .stop => c.stop.isSome
  | .request => c.request.isSome

/-- Takes in a value, which may be given once. Kinds may be written in any case. -/
def assign (c : CommandLine) (slot : ValueSlot) (value : String) : Except UsageError CommandLine :=
  if c.has slot then .error .argumentConflict
  else
    match slot with
    | .file => if value = "" then .error .invalidValue else .ok { c with file := some value }
    | .kind =>
      match ReportKind.ofWord? (String.ofList (value.toList.map Char.toLower)) with
      | some kind => .ok { c with kind := some kind }
      | none => .error .invalidValue
    | .start => (offsetOfWord value).map fun n => { c with start := some n }
    | .stop => (offsetOfWord value).map fun n => { c with stop := some n }
    | .request => .ok { c with request := some value }

/-- Checks what is given together: a request goes with nothing else, and without one the file and
the kind are needed. -/
def check (c : CommandLine) : Except UsageError CommandLine :=
  if c.request.isSome then
    if c.has .file || c.has .kind || c.has .start || c.has .stop then .error .argumentConflict
    else .ok c
  else if c.has .file && c.has .kind then .ok c
  else .error .missingArgument

end CommandLine

/-- The state between two words of a command line. -/
structure CommandLineReader where
  /-- What has been taken in. -/
  line : CommandLine
  /-- What has begun and is not taken in yet, with its value once that has come. -/
  pending : Option (ValueSlot × Option String)
  /-- How many words were neither options nor values of options. -/
  places : Nat
  /-- Whether no further word is an option. -/
  onlyPlaces : Bool
deriving DecidableEq, Inhabited, Repr

namespace CommandLineReader

/-- The state before the first word. -/
def initial : CommandLineReader := ⟨CommandLine.empty, none, 0, false⟩

/-- Takes in what has begun. -/
def settle (r : CommandLineReader) : Except UsageError CommandLineReader :=
  match r.pending with
  | none => .ok r
  | some (_, none) => .error .invalidValue
  | some (slot, some value) =>
    (r.line.assign slot value).map fun line => { r with line, pending := none }

/-- Begins something that takes a value. -/
def start (r : CommandLineReader) (slot : ValueSlot) (value : Option String) :
    Except UsageError CommandLineReader :=
  r.settle.map fun r => { r with pending := some (slot, value) }

/-- Takes in a value at once. -/
def take (r : CommandLineReader) (slot : ValueSlot) (value : String) :
    Except UsageError CommandLineReader := do
  let r ← r.settle
  return { r with line := ← r.line.assign slot value }

/-- A word that stands for itself: the file first, then the kind. -/
def place (r : CommandLineReader) (word : String) : Except UsageError CommandLineReader :=
  match r.places with
  | 0 => { r with places := 1 }.start .file (some word)
  | 1 => { r with places := 2 }.start .kind (some word)
  | _ => .error .unknownArgument

/-- Ends with an error, after what has begun has been taken in. -/
def stop (r : CommandLineReader) (error : UsageError) : Except UsageError CommandLineReader :=
  match r.settle with
  | .ok _ => .error error
  | .error e => .error e

/-- Says that headings are not coloured. -/
def setNoColor (r : CommandLineReader) : Except UsageError CommandLineReader := do
  let r ← r.settle
  if r.line.noColor then throw .argumentConflict
  return { r with line := { r.line with noColor := true } }

/-- What an option that takes a value gives. -/
def valueSlot? : String → Option ValueSlot
  | "start" => some .start
  | "end" => some .stop
  | "request" => some .request
  | _ => none

/-- A word with two dashes in front, which are taken away. -/
def longOption (r : CommandLineReader) (body : List Char) : Except UsageError CommandLineReader :=
  let name := String.ofList (body.takeWhile (· ≠ '='))
  let value := match body.dropWhile (· ≠ '=') with
    | _ :: rest => some (String.ofList rest)
    | [] => none
  match valueSlot? name, value with
  | some slot, some value => r.take slot value
  | some slot, none => r.start slot none
  | none, _ =>
    if name = "no-color" ∨ name = "help" ∨ name = "version" then
      if value.isSome then .error .tooManyValues
      else if name = "no-color" then r.setNoColor
      else r.stop (if name = "help" then .help else .version)
    else .error .unknownArgument

/-- A word with one dash in front, which is taken away. -/
def shortOption (r : CommandLineReader) (body : List Char) : Except UsageError CommandLineReader :=
  match body with
  | 'h' :: _ => r.stop .help
  | 'V' :: _ => r.stop .version
  | _ => .error .unknownArgument

/-- A word that is no option: the value that an option waits for, or one that stands for itself. -/
def plain (r : CommandLineReader) (word : String) : Except UsageError CommandLineReader :=
  match r.pending with
  | some (slot, none) => .ok { r with pending := some (slot, some word) }
  | _ => r.place word

/-- Reads one word. -/
def word (r : CommandLineReader) (word : String) : Except UsageError CommandLineReader :=
  if r.onlyPlaces then r.place word
  else
    match word.toList with
    | ['-', '-'] => .ok { r with onlyPlaces := true }
    | '-' :: '-' :: body => r.longOption body
    | '-' :: c :: body => r.shortOption (c :: body)
    | _ => r.plain word

end CommandLineReader

/-- What the words of a command line say. -/
def CommandLine.ofWords (words : List String) : Except UsageError CommandLine := do
  let r ← words.foldlM CommandLineReader.word CommandLineReader.initial
  let r ← r.settle
  r.line.check

end TypeProbe
