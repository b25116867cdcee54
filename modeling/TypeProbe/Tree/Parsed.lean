import TypeProbe.Token.Lexer
import TypeProbe.Tree.Grammar.Statement

/-!
# Parsed texts

`ParsedText.ofText` reads a whole text: its tokens, its lines, its tree and what is wrong with it.
The rules of the grammar call each other through `Rule.parse`, whose first argument bounds the depth
of the calls. Between two tokens taken a rule calls at most three others, so a small multiple of the
number of tokens is never used up.
-/

namespace TypeProbe

/-- What each rule reads, given the parsers of the rules it leads to. -/
def Rule.body (call : Rules) : Rule → Parser NodeId
  | .test => Grammar.test call
  | .lambda => Grammar.lambda call
  | .notTest => Grammar.notTest call
  | .factor => Grammar.factor call
  | .atomExpression => Grammar.atomExpression call
  | .statement => Grammar.statement call
  | .ifStatement => Grammar.ifStatement call
  | .assignment start left => Grammar.assignment call start left

/-- The node that a rule goes on from, if one has been read before it. -/
def Rule.given? : Rule → Option NodeId
  | .assignment _ left => some left
  | _ => none

/-- The parsers of all rules, which call each other at most `fuel` levels deep. -/
def Rule.parse : (fuel : Nat) → Rules
  | 0, rule => Parser.errorNode .maxDepthExceeded rule.given?
  | fuel + 1, rule => rule.body (Rule.parse fuel)

/-- A text and all that is read from it without looking at other texts. -/
structure ParsedText where
  /-- The text. -/
  text : String
  /-- Its tokens. -/
  tokens : List Token
  /-- Where its lines start. -/
  lines : LineMap
  /-- The nodes of its tree. -/
  arena : Arena
  /-- The node of the whole text. -/
  root : NodeId
  /-- What is wrong with it, from left to right. -/
  diagnostics : List Diagnostic
  /-- Whether a node of the tree was widened when it had a parent already. -/
  widenedOwned : Bool
deriving DecidableEq, Inhabited

namespace ParsedText

/-- The token at the end of a text of the given number of bytes. -/
def endToken (length : Nat) : Token := ⟨⟨length, 0⟩, .endOfStream⟩

/-- The state of a parser before the first token. -/
def initialState (length : Nat) (tokens : List Token) : ParseState :=
  { current := tokens.headD (endToken length)
    following := tokens.tail
    previousStop := 0
    arena := Arena.empty
    diagnostics := []
    depth := 0
    widenedOwned := false }

/-- A bound for the depth of the calls of rules on a text of so many tokens. -/
def callLimit (tokenCount : Nat) : Nat := 4 * tokenCount + 16

/-- The root of the tree of a text of the given number of bytes, and the state in which its parser
ends. -/
def parseTokens (length : Nat) (tokens : List Token) : NodeId × ParseState :=
  let parser := Grammar.module (Rule.parse (callLimit tokens.length)) length
  parser.run (initialState length tokens)

/-- Reads a text. -/
def ofText (text : String) : ParsedText :=
  let chars := text.toList
  let tokens := Tokens.ofText chars
  let (root, s) := parseTokens (byteLength chars) tokens
  { text, tokens, root
    lines := LineMap.ofText chars
    arena := s.arena
    diagnostics := s.diagnostics.reverse
    widenedOwned := s.widenedOwned }

end ParsedText

end TypeProbe
