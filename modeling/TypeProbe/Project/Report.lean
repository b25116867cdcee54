import TypeProbe.Project.Basic
import TypeProbe.Text.Json

/-!
# Reports

A report shows one file of a project: its tokens, its tree, or the type of what stands in a range of
its text (`SourceFile.typeText`). `Project.report` answers a request that has come in as loose
arguments: the name of a file, the kind of report, and for types two offsets. A request that cannot
be answered has the empty report.
-/

namespace TypeProbe

/-- The kinds of reports. -/
inductive ReportKind where
  | tokens | nodes | types
deriving DecidableEq, Inhabited, Repr

instance : Labelled ReportKind where
  members := [.tokens, .nodes, .types]
  label
    | .tokens => "tokens" | .nodes => "nodes" | .types => "types"

/-- The kind of report that a word names. -/
def ReportKind.ofWord? (word : String) : Option ReportKind :=
  Labelled.members.find? fun kind => label kind == word

namespace SourceFile

/-- The text for a range in which there is nothing that has a type. -/
def nothingText : String := "N/A"

/-- The text for an expression that has no type. -/
def noTypeText : String := "No result"

/-- What is shown for an expression: where it stands, and its type; nothing if its evaluation does
not end. -/
def expressionText (file : SourceFile) (node : NodeId) (range : TextRange) : Option String :=
  match file.parsed.arena.range? node with
  | none => nothingText
  | some nodeRange => do
    let found := file.parsed.lines.spanText nodeRange
    let given := file.parsed.lines.spanText range
    let (type?, c) ← file.checker.typeOf? node
    let shown := match type? with
      | some type => (file.graph c).typeText type
      | none => noTypeText
    return s!"Expression node found at {found} from the given span {given}\n" ++ shown

/-- What is shown for what a question about types is about. -/
def targetText (file : SourceFile) (target : TypeTarget) (range : TextRange) : Option String :=
  match target with
  | .classDef node => do
    let (types?, c) ← file.checker.classOf? node
    return match types? with
      | some types => (file.graph c).classText types.defined types.decorated
      | none => nothingText
  | .function node => do
    let (types?, c) ← file.checker.functionOf? node
    return match types? with
      | some types => (file.graph c).functionText types.defined types.decorated
      | none => nothingText
  | .expression node => file.expressionText node range

/-- The type of what stands in a range of the text. The name of a class or a function stands for its
definition, anything else for the expression around it. -/
def typeText (file : SourceFile) (start stop : Nat) : Option String :=
  let a := file.parsed.arena
  let range := TextRange.ofBounds start stop
  match (a.anchor? file.parsed.root range).bind fun anchor => a.target? anchor range with
  | some target => file.targetText target range
  | none => nothingText

/-- The tree of the file with one line for every node. -/
def treeText (file : SourceFile) : String :=
  (TreeWriter.empty.walk file.parsed.arena file.parsed.lines file.parsed.root).take.1

/-- The tokens of the file, one a line. -/
def tokenTexts (file : SourceFile) : List String := tokenLines file.parsed.lines file.parsed.tokens

end SourceFile

/-- The offset that an argument gives: a whole number from 1 to the greatest of 32 bits. -/
def offsetOf? : Json → Option Nat
  | .int n => if 0 < n ∧ n < offsetLimit then some n.toNat else none
  | _ => none

/-- The first line of a report, which names the file. -/
def reportTitle (name : String) : String := s!"* Dump debug info for '{name}'"

namespace SourceFile

/-- The lines of a report on the file, which is known by the given name; further arguments are the
offsets that a report on types needs. There is no report if the evaluation of a type does not
end. -/
def report (file : SourceFile) (name : String) (kind : ReportKind) (further : List Json) :
    Option (List String) :=
  match kind with
  | .tokens =>
    some (reportTitle name :: s!"* Token info ({file.parsed.tokens.length} tokens)" ::
      file.tokenTexts)
  | .nodes => some [reportTitle name, "* Node info", file.treeText]
  | .types =>
    match further.map offsetOf? with
    | some start :: some stop :: _ =>
      (file.typeText start stop).map fun text => [reportTitle name, "* Type info", text]
    | _ => some []

end SourceFile

/-- The report that answers a request, unless the request has been cancelled. -/
def Project.report (p : Project) (cancelled : Bool) (arguments : List Json) :
    Option (List String) :=
  match arguments with
  | .text name :: .text word :: further =>
    match ReportKind.ofWord? word, p.file? name with
    | some kind, some file => if cancelled then some [] else file.report name kind further
    | _, _ => some []
  | _ => some []

end TypeProbe
