import TypeProbe.Token.Printer
import TypeProbe.Tree.Arena

/-!
# Tree lines

A node is shown on one line: its id, its construct, its place and what it holds besides other nodes
(`nodeLine`). A tree is shown with one line for every node, each node before its children and two
spaces further in than its parent (`treeLines`). `TreeWriter` is a buffer for such lines.
-/

namespace TypeProbe

/-- The text of a truth value. -/
def flagText (b : Bool) : String := if b then "true" else "false"

/-- The text of a number in node lines. -/
def NumberValue.text : NumberValue → String
  | .int n => toString n
  | .float x => Decimal.plainFormat.text x

/-- What a construct holds besides other nodes, as it is shown after the node's place. -/
def Form.details (lines : LineMap) : Form → String
  | .argument category _ _ => " " ++ label category
  | .augmentedAssignment op _ _ => " " ++ label op
  | .binaryOperation op token _ _ parenthesized =>
    s!" {token.text lines} {label op} parenthesized:({flagText parenthesized})"
  | .unaryOperation op token _ => s!" {token.text lines} {label op}"
  | .constant keyword => " " ++ label keyword
  | .error category _ => " " ++ label category
  | .importFrom _ _ wildcard usesParens missingImportKeyword =>
    let token := (wildcard.map (Token.text lines)).getD "N/A"
    s!" wildcard import:({flagText wildcard.isSome}) paren:({flagText usesParens}) " ++
      s!"wildcard token:({token}) missing import keyword:({flagText missingImportKeyword})"
  | .forLoop isAsync .. | .function _ isAsync .. | .withBlock isAsync ..
  | .comprehensionFor isAsync .. => s!" async:({flagText isAsync})"
  | .string token literal | .formatString token literal =>
    s!" {token.text lines} {literal.value} unescape errors:({flagText literal.hasUnescapeErrors})"
  | .moduleName leadingDots _ hasTrailingDot =>
    s!" leading dots:({leadingDots}) trailing dot:({flagText hasTrailingDot})"
  | .name token value => s!" {token.text lines} {value}"
  | .number n =>
    s!" {n.value.text} int:({flagText n.isInteger}) imaginary:({flagText n.isImaginary})"
  | .parameter category .. => " " ++ label category
  | .tuple _ enclosedInParens => s!" paren:({flagText enclosedInParens})"
  | _ => ""

/-- The line of a node. -/
def nodeLine (lines : LineMap) (id : NodeId) (node : Node) : String :=
  let place :=
    s!"p:{node.range.start} l:{node.range.length} [{lines.spanText node.range}]"
  s!"[{id}] ({label node.kind}, {place})" ++ node.form.details lines

/-- The blanks in front of a node's line: two for every level below the root. -/
def levelIndent (level : Nat) : String := String.ofList (List.replicate (2 * level) ' ')

namespace Arena

/-- The line of a node at a level, if the node exists. -/
def lineAt (a : Arena) (lines : LineMap) (level : Nat) (id : NodeId) : List String :=
  match a.get? id with
  | some node => [levelIndent level ++ nodeLine lines id node]
  | none => []

/-- The lines of a node and of all nodes below it, down to `fuel` levels. -/
def treeLinesAt (a : Arena) (lines : LineMap) : (fuel level : Nat) → NodeId → List String
  | 0, _, _ => []
  | fuel + 1, level, id =>
    a.lineAt lines level id ++ (a.children id).flatMap (a.treeLinesAt lines fuel (level + 1))

/-- The lines of a node and of all nodes below it. -/
def treeLines (a : Arena) (lines : LineMap) (root : NodeId) : List String :=
  a.treeLinesAt lines a.size 0 root

end Arena

/-- The text of some lines, each ended by a line feed. -/
def linesText (lines : List String) : String := String.join (lines.map (· ++ "\n"))

/-- A buffer for the lines of nodes, with what stands in front of the next one. -/
structure TreeWriter where
  /-- The blanks in front of the next line. -/
  indentation : String
  /-- What has been written and not yet taken. -/
  output : String
deriving DecidableEq, Inhabited, Repr

namespace TreeWriter

/-- The writer without output. -/
def empty : TreeWriter := ⟨"", ""⟩

/-- Writes a line behind the indentation. -/
def log (w : TreeWriter) (line : String) : TreeWriter :=
  { w with output := w.output ++ w.indentation ++ line ++ "\n" }

/-- Goes one level further in. -/
def indent (w : TreeWriter) : TreeWriter :=
  { w with indentation := w.indentation ++ levelIndent 1 }

/-- Goes one level back, which leaves out the last two blanks. -/
def outdent (w : TreeWriter) : TreeWriter :=
  { w with indentation := String.ofList w.indentation.toList.dropLast.dropLast }

/-- Writes the line of one node. -/
def visit (w : TreeWriter) (a : Arena) (lines : LineMap) (id : NodeId) : TreeWriter :=
  match a.get? id with
  | some node => w.log (nodeLine lines id node)
  | none => w

/-- Writes the lines of a node and of all nodes below it, down to `fuel` levels. -/
def walkWithin (a : Arena) (lines : LineMap) : (fuel : Nat) → TreeWriter → NodeId → TreeWriter
  | 0, w, _ => w
  | fuel + 1, w, id =>
    let visited := w.visit a lines id
    if (a.children id).isEmpty then visited
    else ((a.children id).foldl (walkWithin a lines fuel) visited.indent).outdent

/-- Writes the lines of a node and of all nodes below it. -/
def walk (w : TreeWriter) (a : Arena) (lines : LineMap) (id : NodeId) : TreeWriter :=
  walkWithin a lines a.size w id

/-- Drops all output and the indentation. -/
def reset (_ : TreeWriter) : TreeWriter := empty

/-- Takes all output, which leaves the writer empty. -/
def take (w : TreeWriter) : String × TreeWriter := (w.output, empty)

end TreeWriter

end TypeProbe
