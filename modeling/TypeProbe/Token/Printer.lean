import TypeProbe.Text.Json
import TypeProbe.Token.Lexer

/-!
# Token lines

A token is shown as its kind, what tells it from others of its kind, its span, and a record of all
that it holds: `tokenText`. `tokenLines` numbers the tokens of a text.
-/

namespace TypeProbe

/-- The value of a number as it stands in records. -/
def NumberValue.toJson : NumberValue → Json
  | .int n => .int n
  | .float x => .float x

/-- The field in which a record shows what a lexeme holds, if it holds anything. -/
def Lexeme.payload? : Lexeme → Option (String × Json)
  | .newLine kind => some ("newLine", .text (label kind))
  | .operator op => some ("operator", .text (label op))
  | .keyword k => some ("keyword", .text (label k))
  | .identifier name => some ("identifier", .record [("value", .text name)])
  | .string s => some ("string", .record [
      ("flags", .int s.flags.bits),
      ("escapedValue", .text s.value),
      ("hasUnescapeErrors", .bool s.hasUnescapeErrors)])
  | .number n => some ("number", .record [
      ("value", n.value.toJson),
      ("isInteger", .bool n.isInteger),
      ("isImaginary", .bool n.isImaginary)])
  | .indent amount => some ("indent", .record [("amount", .int amount)])
  | .dedent amount matchesIndent => some ("dedent", .record [
      ("amount", .int amount),
      ("matchesIndent", .bool matchesIndent)])
  | _ => none

namespace Token

/-- The record of all that a token holds. -/
def toJson (t : Token) : Json :=
  .record ([("kind", .text (label t.kind)), ("start", .int t.start),
    ("length", .int t.range.length)]
    ++ t.lexeme.payload?.toList)

/-- What tells a token from others of its kind: the kind of a line end, an operator, a keyword, or
the flags of a string. -/
def details (t : Token) : List String :=
  match t.lexeme with
  | .newLine kind => [label kind]
  | .operator op => [label op]
  | .keyword k => [label k]
  | .string s => ["[" ++ s.flags.text ++ "]"]
  | _ => []

/-- A token on one line. -/
def text (lines : LineMap) (t : Token) : String :=
  let parts := [label t.kind] ++ t.details ++ [lines.spanText t.range]
  "(" ++ ", ".intercalate parts ++ ") " ++ t.toJson.compact

end Token

/-- The lines that show the tokens, each with its number. -/
def tokenLines (lines : LineMap) (tokens : List Token) : List String :=
  tokens.mapIdx fun i t => s!"[{i}] " ++ t.text lines

end TypeProbe
