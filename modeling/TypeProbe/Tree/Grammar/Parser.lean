import TypeProbe.Tree.Arena
import TypeProbe.Tree.Grammar.Diagnostic

/-!
# Parsers

A `Parser` goes through the tokens of a text from left to right, builds nodes, and notes what is
wrong; it never fails. The grammar is a set of mutually recursive rules. Each rule of the modules
beside this one is an ordinary definition that is given, as `call`, the parsers of the rules it
leads to; `Rule` lists the rules that are called in this way, and the recursion is tied once, in the
module that assembles the grammar. Repetition (`many`, `separated`, `foldMany`) is bounded by the
number of tokens that are left, since every round takes at least one.
-/

namespace TypeProbe

/-- The state of a parser between two tokens. -/
structure ParseState where
  /-- The next token. -/
  current : Token
  /-- The tokens after the next one; the last of all is the end of the stream. -/
  following : List Token
  /-- Where the last token taken stops, 0 before the first. -/
  previousStop : Nat
  /-- The nodes built so far. -/
  arena : Arena
  /-- What was wrong so far, the last first. -/
  diagnostics : List Diagnostic
  /-- The number of nested expressions around the next token. -/
  depth : Nat
  /-- Whether a node was widened that had a parent already, whose range then need not hold it. -/
  widenedOwned : Bool
deriving DecidableEq, Inhabited

/-- A computation that takes tokens and builds nodes. -/
abbrev Parser (α : Type) := StateM ParseState α

/-- The rules through which the grammar is recursive. -/
inductive Rule where
  /-- An expression, possibly conditional. -/
  | test
  /-- A function without a name. -/
  | lambda
  /-- A negated or compared expression. -/
  | notTest
  /-- An expression with a sign, or a power. -/
  | factor
  /-- An atom with calls, subscripts and members. -/
  | atomExpression
  /-- A statement, or a line of simple ones. -/
  | statement
  /-- A conditional statement, from its first or a later condition on. -/
  | ifStatement
  /-- The rest of an assignment whose first target has been read. -/
  | assignment (start : Nat) (left : NodeId)
deriving DecidableEq, Inhabited, Repr

/-- The parsers of the rules that a rule leads to. -/
abbrev Rules := Rule → Parser NodeId

namespace Parser

/-- A parser goes on from the result and the state of the one before it. -/
theorem run_bind_of {α β : Type} {x : Parser α} {f : α → Parser β} {a : α} {s t : ParseState}
    (h : x.run s = (a, t)) : (x >>= f).run s = (f a).run t := by
  rw [StateT.run_bind, h]
  rfl

/-- The next token. -/
def peek : Parser Token := return (← get).current

/-- The token after the next one; nothing comes after the end of the stream but itself. -/
def peekSecond : Parser Token := do
  let s ← get
  return s.following.headD s.current

/-- Where the next token starts. -/
def currentStart : Parser Nat := return (← peek).start

/-- Where the last token taken stops. -/
def previousStop : Parser Nat := return (← get).previousStop

/-- Whether the next token is of the given kind. -/
def «at» (kind : TokenKind) : Parser Bool := return (← peek).kind == kind

/-- Whether the next token is the given keyword. -/
def atKeyword (keyword : Keyword) : Parser Bool := return (← peek).keyword? == some keyword

/-- Whether the next token is the given operator. -/
def atOperator (op : Operator) : Parser Bool := return (← peek).operator? == some op

/-- Whether a token ends a line. -/
def endsLine (kind : TokenKind) : Bool := kind == .newLine || kind == .endOfStream

/-- Whether the line has no more tokens. -/
def atEndOfLine : Parser Bool := return endsLine (← peek).kind

/-- The state after the next token; the end of the stream is never passed. -/
def advanced (s : ParseState) : ParseState :=
  match s.following with
  | [] => s
  | next :: rest =>
    if s.current.kind = .endOfStream then s
    else { s with current := next, following := rest, previousStop := s.current.stop }

/-- Taking a token leaves the nodes. -/
theorem arena_advanced (s : ParseState) : (advanced s).arena = s.arena := by
  unfold advanced
  split
  · rfl
  · split <;> rfl

/-- Taking a token notes no fault. -/
theorem diagnostics_advanced (s : ParseState) : (advanced s).diagnostics = s.diagnostics := by
  unfold advanced
  split
  · rfl
  · split <;> rfl

/-- Takes the next token; the end of the stream is never taken away. -/
def advance : Parser Token := do
  let token ← peek
  modify advanced
  return token

/-- Takes the next token if it fits. -/
def advanceIf (fits : Bool) : Parser (Option Token) := do
  if fits then return some (← advance) else return none

/-- Takes the next token if it is of the given kind. -/
def consume (kind : TokenKind) : Parser (Option Token) := do advanceIf (← «at» kind)

/-- Takes the next token if it is the given keyword. -/
def consumeKeyword (keyword : Keyword) : Parser (Option Token) := do
  advanceIf (← atKeyword keyword)

/-- Takes the next token if it is the given operator. -/
def consumeOperator (op : Operator) : Parser (Option Token) := do advanceIf (← atOperator op)

/-- Takes the next token if it is of the given kind, and says whether it was. -/
def took (kind : TokenKind) : Parser Bool := return (← consume kind).isSome

/-- Takes the next token if it is the given keyword, and says whether it was. -/
def tookKeyword (keyword : Keyword) : Parser Bool := return (← consumeKeyword keyword).isSome

/-- Takes the next token if it is the given operator, and says whether it was. -/
def tookOperator (op : Operator) : Parser Bool := return (← consumeOperator op).isSome

/-- The state after at most `fuel` tokens, before the end of the line. -/
def skippedLine : (fuel : Nat) → ParseState → ParseState
  | 0, s => s
  | fuel + 1, s => if endsLine s.current.kind then s else skippedLine fuel (advanced s)

/-- Takes all tokens up to the end of the line. -/
def skipToEndOfLine : Parser Unit := modify fun s => skippedLine s.following.length s

/-- Notes a fault, unless the last one noted starts at the same place. -/
def faultAt (range : TextRange) (fault : SyntaxFault) : Parser Unit :=
  modify fun s =>
    if s.diagnostics.head?.map (·.range.start) = some range.start then s
    else { s with diagnostics := ⟨range, fault⟩ :: s.diagnostics }

/-- Notes a fault at the next token. -/
def fault (fault : SyntaxFault) : Parser Unit := do faultAt (← peek).range fault

/-- Takes the next token if it is of the given kind, which is spelled so; notes a fault if it is
not. Says whether it was. -/
def expect (kind : TokenKind) (spelling : String) : Parser Bool := do
  if ← took kind then return true
  fault (.spelling spelling)
  return false

/-- Adds a node that reaches at least from `start` to `stop`. -/
def addNode (start stop : Nat) (form : Form) : Parser NodeId :=
  modifyGet fun s =>
    let (id, arena) := s.arena.add start stop form
    (id, { s with arena })

/-- Adds a node that reaches at least from `start` to where the last token stops. -/
def node (start : Nat) (form : Form) : Parser NodeId := do
  addNode start (← previousStop) form

/-- Adds a node that stands where the given token does. -/
def tokenNode (token : Token) (form : Form) : Parser NodeId := addNode token.start token.stop form

/-- Adds an error node, from its child, or else the next token, to where the last token stops. -/
def errorNode (category : ErrorCategory) (child : Option NodeId) : Parser NodeId := do
  let s ← get
  let start := ((child.bind s.arena.range?).map (·.start)).getD s.current.start
  addNode start (max s.previousStop start) (.error category child)

/-- Adds the name that a token spells; a token that is no name spells an empty one. -/
def nameNode (token : Token) : Parser NodeId :=
  let value := match token.lexeme with
    | .identifier name => name
    | _ => ""
  tokenNode token (.name token value)

/-- A name; without one an empty name stands before the next token. -/
def name (missing : SyntaxFault) : Parser NodeId := do
  match ← consume .identifier with
  | some token => nameNode token
  | none =>
    fault missing
    nameNode ⟨⟨← currentStart, 0⟩, .identifier ""⟩

/-- Repeats a step until it yields nothing, at most `fuel` times, and collects what it yields. -/
def manyAtMost {α : Type} (step : Parser (Option α)) : (fuel : Nat) → Parser (List α)
  | 0 => return []
  | fuel + 1 => do
    match ← step with
    | none => return []
    | some a => return a :: (← manyAtMost step fuel)

/-- A bound for the number of further steps that each take a token, the last one excepted. -/
def roundLimit : Parser Nat := return (← get).following.length + 1

/-- Repeats a step until it yields nothing, and collects what it yields. -/
def many {α : Type} (step : Parser (Option α)) : Parser (List α) := do
  match ← step with
  | none => return []
  | some a => return a :: (← manyAtMost step (← roundLimit))

/-- Repeats a step on its own result until it yields nothing, at most `fuel` times. -/
def foldAtMost {α : Type} (step : α → Parser (Option α)) : (fuel : Nat) → α → Parser α
  | 0, a => return a
  | fuel + 1, a => do
    match ← step a with
    | none => return a
    | some b => foldAtMost step fuel b

/-- Repeats a step on its own result until it yields nothing. -/
def foldMany {α : Type} (a : α) (step : α → Parser (Option α)) : Parser α := do
  match ← step a with
  | none => return a
  | some b => foldAtMost step (← roundLimit) b

/-- Items with commas between them and possibly after the last, until `stops` holds where an item
could start; at most `fuel` items. -/
def separatedAtMost {α : Type} (stops : Parser Bool) (item : Parser α) :
    (fuel : Nat) → Parser (List α)
  | 0 => return []
  | fuel + 1 => do
    if ← stops then return []
    let first ← item
    if ← took .comma then return first :: (← separatedAtMost stops item fuel)
    return [first]

/-- Items with commas between them and possibly after the last, until `stops` holds where an item
could start. -/
def separated {α : Type} (stops : Parser Bool) (item : Parser α) : Parser (List α) := do
  separatedAtMost stops item (← roundLimit)

/-- Never stops: an item must follow every comma. -/
def neverStops : Parser Bool := return false

/-- Items after a first one: each after a comma, until `stops` holds after a comma. -/
def more {α : Type} (stops : Parser Bool) (item : Parser α) : Parser (List α) := do
  if ← took .comma then separated stops item else return []

/-- The greatest number of nested expressions. -/
def depthLimit : Nat := 128

/-- Reads an expression one level further in. Beyond the limit the rest of the line is an error. -/
def nested (inner : Parser NodeId) : Parser NodeId := do
  if depthLimit ≤ (← get).depth then
    fault .tooDeep
    let start ← currentStart
    skipToEndOfLine
    addNode start (max (← previousStop) start) (.error .maxDepthExceeded none)
  else
    modify fun s => { s with depth := s.depth + 1 }
    let result ← inner
    modify fun s => { s with depth := s.depth - 1 }
    return result

end Parser

end TypeProbe
