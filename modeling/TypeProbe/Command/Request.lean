import TypeProbe.Command.CommandLine
import TypeProbe.Text.JsonReader

/-!
# Requests

A command line becomes a `Request`: the file to read, and the arguments of a report on it. The
request is answered with the lines of the report (`Request.answer`), given how files are read; that
there is nothing to show is an error here. `outputText` writes the lines, headings in colour if that
is asked for.
-/

namespace TypeProbe

/-- Why a request fails. -/
inductive RequestError where
  /-- The request that is given as a text is no list. -/
  | noList (text : String)
  /-- The request does not start with a file. -/
  | noPath
  /-- The command line gives no request. -/
  | incomplete
  /-- The file cannot be read as a text. -/
  | unreadable (path : String)
  /-- The report is empty. -/
  | nothingToShow (path : String)
deriving DecidableEq, Inhabited, Repr

/-- What is said about a request that fails. -/
def RequestError.message : RequestError → String
  | .noList text => s!"--request is not a JSON array: {text}"
  | .noPath => "--request must start with a file path"
  | .incomplete => "a FILE and a KIND are required without --request"
  | .unreadable path => s!"failed to read {path}"
  | .nothingToShow path => s!"no debug info for {path} (types needs non-zero --start and --end)"

/-- A report that is asked for. -/
structure Request where
  /-- The file to read. -/
  path : String
  /-- The arguments of the report, which start with the file. -/
  arguments : List Json

namespace Request

/-- The request that is given as a text: a list that starts with a file. -/
def ofText (text : String) : Except RequestError Request :=
  match Json.parse? text with
  | some (.list (.text path :: arguments)) => .ok ⟨path, .text path :: arguments⟩
  | some (.list _) => .error .noPath
  | _ => .error (.noList text)

/-- The offset as an argument; a missing one is sent as zero, which is none. -/
def offsetArgument (offset : Option Nat) : Json := .int (offset.getD 0)

/-- The request for a kind of report on a file. -/
def ofParts (path : String) (kind : ReportKind) (start stop : Option Nat) : Request where
  path := path
  arguments := .text path :: .text (label kind) ::
    (if kind = .types then [offsetArgument start, offsetArgument stop] else [])

/-- The request of a command line. -/
def ofCommandLine (c : CommandLine) : Except RequestError Request :=
  match c.request, c.file, c.kind with
  | some text, _, _ => ofText text
  | none, some path, some kind => .ok (ofParts path kind c.start c.stop)
  | none, _, _ => .error .incomplete

/-- The lines of the report, if there is one, given how files are read. -/
def answer (r : Request) (read : String → Option String) :
    Option (Except RequestError (List String)) :=
  match read r.path with
  | none => some (.error (.unreadable r.path))
  | some text =>
    ((Project.empty.setFile r.path text).report false r.arguments).map fun
      | [] => .error (.nothingToShow r.path)
      | lines => .ok lines

end Request

/-- Whether headings are coloured: only on a terminal, and not if the command line or the
environment asks for none. -/
def CommandLine.colors (c : CommandLine) (refused isTerminal : Bool) : Bool :=
  !c.noColor && !refused && isTerminal

/-- The mark behind which text is bold and in cyan. -/
def headingMark : List Char := "\x1b[1;36m".toList

/-- The mark behind which text is plain again. -/
def plainMark : List Char := "\x1b[0m".toList

/-- A text with the mark of headings behind every mark of plain text in it, so that all of it has
the look of a heading. -/
def keptHeading : List Char → List Char
  | '\x1b' :: '[' :: '0' :: 'm' :: rest => plainMark ++ headingMark ++ keptHeading rest
  | c :: rest => c :: keptHeading rest
  | [] => []

/-- A line as it is written; headings, which start with a star, are written bold and in cyan if
there are colours. -/
def shownLine (colors : Bool) (line : String) : String :=
  if colors && line.startsWith "* " then
    String.ofList (headingMark ++ keptHeading line.toList ++ plainMark)
  else line

/-- The text of the lines of a report. -/
def outputText (colors : Bool) (lines : List String) : String :=
  linesText (lines.map (shownLine colors))

end TypeProbe
