import TypeProbe.Tree.Grammar.Parser

/-!
# Expressions

The rules for expressions, from the loosest binding to the tightest: conditional expressions, `or`,
`and`, `not`, comparisons, six levels of binary operators, signs, powers, atoms with calls,
subscripts and members, and atoms. Where something is missing a fault is noted and an error node
stands for it.
-/

namespace TypeProbe.Grammar

open TypeProbe.Parser

/-- Tokens before which an expression cannot go on. -/
def endsExpression (token : Token) : Bool :=
  match token.lexeme with
  | .newLine _ | .endOfStream | .semicolon | .closeParenthesis | .closeBracket | .closeCurlyBrace
  | .colon | .indent _ | .dedent _ _ => true
  | .operator op => op == .assign
  | _ => false

/-- Whether an expression cannot go on at the next token. -/
def atExpressionEnd : Parser Bool := return endsExpression (← peek)

/-- Notes a missing expression and stands an error node for it. -/
def missingExpression : Parser NodeId := do
  fault .expression
  errorNode .missingExpression none

/-- Whether a clause of a comprehension starts at the next token. -/
def atComprehension : Parser Bool := do
  let first := (← peek).keyword?
  let second := (← peekSecond).keyword?
  return first == some .for || (first == some .async && second == some .for)

/-- The operation on two operands, with the token that stands between them. -/
def binary (left : NodeId) (op : Operator) (token : Token) (right : NodeId) : Parser NodeId := do
  let start := (((← get).arena.range? left).map (·.start)).getD token.start
  node start (.binaryOperation op token left right false)

/-- Operands with one of the keywords between them, grouped from the left. -/
def keywordChain (keyword : Keyword) (op : Operator) (operand : Parser NodeId) : Parser NodeId := do
  foldMany (← operand) fun left => do
    match ← consumeKeyword keyword with
    | none => return none
    | some token => return some (← binary left op token (← operand))

/-- The strength of the tightest binary operators but the power. -/
def tightest : Nat := 10

/-- Operands of the binary operators of strength at least `tightest + 1 - levels`, grouped from the
left. -/
def binaryLevels (operand : Parser NodeId) : (levels : Nat) → Parser NodeId
  | 0 => operand
  | levels + 1 => do
    foldMany (← binaryLevels operand levels) fun left => do
      match (← peek).operator? with
      | none => return none
      | some op =>
        if op.binaryPrecedence? != some (tightest - levels) then return none
        let token ← advance
        return some (← binary left op token (← binaryLevels operand levels))

/-- A bracketed construct: without its closing bracket, which is spelled so, the rest of the line is
skipped and an error node stands around it. -/
def closing (closed : Bool) (id : NodeId) (spelling : String) (category : ErrorCategory) :
    Parser NodeId := do
  if closed then return id
  fault (.spelling spelling)
  skipToEndOfLine
  errorNode category (some id)

section Rules

variable (call : Rules)

/-- A power, or an atom expression that is possibly awaited. -/
def power : Parser NodeId := do
  let left ← match ← consumeKeyword .await with
    | some token => do
      let expression ← nested (call .atomExpression)
      node token.start (.await expression)
    | none => nested (call .atomExpression)
  match ← consumeOperator .power with
  | none => return left
  | some token => binary left .power token (← nested (call .factor))

/-- Operators that stand before their operand. -/
def isSign (op : Operator) : Bool := op == .add || op == .subtract || op == .bitwiseInvert

/-- An expression with a sign, or a power. -/
def factor : Parser NodeId := do
  match (← peek).operator? with
  | none => power call
  | some op =>
    if !isSign op then return ← power call
    let token ← advance
    let expression ← nested (call .factor)
    node token.start (.unaryOperation op token expression)

/-- Binary operators of all strengths but the power. -/
def bitwiseOr : Parser NodeId := binaryLevels (factor call) 6

/-- The comparison at the next token and the token that shows it; of one in two words the first is
taken. -/
def comparisonOperator : Parser (Option (Operator × Token)) := do
  let token ← peek
  let second := (← peekSecond).keyword?
  match token.lexeme with
  | .operator op => return if op.isComparison then some (op, token) else none
  | .keyword .in => return some (.in, token)
  | .keyword .is =>
    if second == some .not then
      let _ ← advance
      return some (.isNot, token)
    return some (.is, token)
  | .keyword .not =>
    if second == some .in then
      let _ ← advance
      return some (.notIn, token)
    return none
  | _ => return none

/-- Comparisons, grouped from the left. -/
def comparison : Parser NodeId := do
  foldMany (← bitwiseOr call) fun left => do
    match ← comparisonOperator with
    | none => return none
    | some (op, token) =>
      let _ ← advance
      return some (← binary left op token (← bitwiseOr call))

/-- A negated expression, or comparisons. -/
def notTest : Parser NodeId := do
  match ← consumeKeyword .not with
  | some token =>
    let expression ← nested (call .notTest)
    node token.start (.unaryOperation .not token expression)
  | none => comparison call

/-- Expressions joined by `or`, each of expressions joined by `and`. -/
def orTest : Parser NodeId := keywordChain .or .or (keywordChain .and .and (notTest call))

/-- An expression, possibly conditional, a function without a name, or a named expression. -/
def test : Parser NodeId := do
  let token ← peek
  if token.keyword? == some .lambda then return ← nested (call .lambda)
  if token.kind == .identifier && (← peekSecond).operator? == some .walrus then
    let title ← nameNode (← advance)
    let _ ← advance
    let right ← nested (call .test)
    return ← node token.start (.assignmentExpression title right)
  let ifExpression ← orTest call
  if !(← tookKeyword .if) then return ifExpression
  let condition ← orTest call
  let elseExpression ←
    if ← tookKeyword .else then nested (call .test)
    else do
      fault (.spelling "else")
      errorNode .missingElse none
  node token.start (.ternary ifExpression condition elseExpression)

/-- An expression unpacked by a star at the next token, or else an expression of the given rule. -/
def starOr (other : Parser NodeId) : Parser NodeId := do
  match ← consumeOperator .multiply with
  | some star =>
    let expression ← bitwiseOr call
    node star.start (.unpack expression)
  | none => other

/-- An expression, possibly unpacked. -/
def testOrStar : Parser NodeId := starOr call (call .test)

/-- Expressions with commas between them as one tuple, or a single one without a comma. -/
def testList : Parser NodeId := do
  let start ← currentStart
  if ← atExpressionEnd then return ← missingExpression
  let first ← testOrStar call
  if !(← «at» .comma) then return first
  let rest ← more atExpressionEnd (testOrStar call)
  node start (.tuple (first :: rest) false)

/-- At least one expression, with commas between them. -/
def testItems : Parser (List NodeId) := do
  if ← atExpressionEnd then return [← missingExpression]
  separated atExpressionEnd (testOrStar call)

/-- Whether a list of targets cannot go on at the next token. -/
def atTargetsEnd : Parser Bool := do
  let token ← peek
  return token.keyword? == some .in || endsExpression token

/-- Targets of a loop with commas between them as one tuple, or a single one without a comma. -/
def targetList : Parser NodeId := do
  let start ← currentStart
  let first ← starOr call (bitwiseOr call)
  if !(← «at» .comma) then return first
  let rest ← more atTargetsEnd (starOr call (bitwiseOr call))
  node start (.tuple (first :: rest) false)

/-- A yielding expression, from its keyword on. -/
def yieldExpression : Parser NodeId := do
  let start := (← advance).start
  if ← tookKeyword .from then
    let expression ← call .test
    return ← node start (.yieldFrom expression)
  let expression ← if ← atExpressionEnd then pure none else some <$> testList call
  node start (.yield expression)

/-- A clause of a comprehension, if one starts at the next token. -/
def comprehensionClause : Parser (Option NodeId) := do
  if ← atComprehension then
    let start ← currentStart
    let isAsync ← tookKeyword .async
    let _ ← advance
    let target ← targetList call
    let iterable ←
      if ← tookKeyword .in then orTest call
      else do
        fault (.spelling "in")
        errorNode .missingIn none
    return some (← node start (.comprehensionFor isAsync target iterable))
  match ← consumeKeyword .if with
  | none => return none
  | some token =>
    let condition ← orTest call
    return some (← node token.start (.comprehensionIf condition))

/-- A comprehension whose element has been read and starts at `start`. -/
def comprehension (expression : NodeId) (start : Nat) : Parser NodeId := do
  let clauses ← many (comprehensionClause call)
  node start (.comprehension expression clauses)

/-- Whether a list in parentheses cannot go on at the next token. -/
def atArgumentsEnd : Parser Bool := do
  let kind := (← peek).kind
  return kind == .closeParenthesis || endsLine kind

/-- How an argument is passed, by the stars in front of it. -/
def argumentCategory : Parser ArgumentCategory := do
  if ← tookOperator .multiply then return .unpackedList
  if ← tookOperator .power then return .unpackedDictionary
  return .simple

/-- An argument of a call. -/
def argument : Parser NodeId := do
  let start ← currentStart
  let category ← argumentCategory
  let isNamed := category == .simple && (← peek).kind == .identifier
    && (← peekSecond).operator? == some .assign
  let title ←
    if isNamed then do
      let title ← nameNode (← advance)
      let _ ← advance
      pure (some title)
    else pure none
  let value ← call .test
  let value ←
    if title.isNone && category == .simple && (← atComprehension) then
      comprehension call value start
    else pure value
  node start (.argument category title value)

/-- The arguments of a call, up to the closing parenthesis. -/
def argumentList : Parser (List NodeId) := separated atArgumentsEnd (argument call)

/-- A part of a slice after its colon, if the next token is a colon and a part follows it. -/
def slicePart : Parser (Option NodeId) := do
  if !(← took .colon) then return none
  let kind := (← peek).kind
  if kind == .colon || kind == .comma || kind == .closeBracket || endsLine kind then return none
  return some (← call .test)

/-- A slice, or an expression where no colon follows. -/
def sliceOrTest : Parser NodeId := do
  let start ← currentStart
  let first ← if ← «at» .colon then pure none else some <$> call .test
  match first, ← «at» .colon with
  | some expression, false => return expression
  | first, _ =>
    let stop ← slicePart call
    let step ← slicePart call
    node start (.slice first stop step)

/-- Whether subscripts cannot go on at the next token. -/
def atSubscriptsEnd : Parser Bool := do
  let kind := (← peek).kind
  return kind == .closeBracket || endsLine kind

/-- A subscript, as an argument. -/
def subscript : Parser NodeId := do
  let start ← currentStart
  if ← tookOperator .multiply then
    let value ← bitwiseOr call
    node start (.argument .unpackedList none value)
  else
    let value ← sliceOrTest call
    node start (.argument .simple none value)

/-- At least one subscript, up to the closing bracket. -/
def subscriptList : Parser (List NodeId) := do
  if ← atSubscriptsEnd then
    fault .indexOrSlice
    let error ← errorNode .missingIndexOrSlice none
    let range := ((← get).arena.range? error).getD default
    return [← addNode range.start range.stop (.argument .simple none error)]
  separated atSubscriptsEnd (subscript call)

/-- Strings that stand side by side. -/
def stringList : Parser NodeId := do
  let start ← currentStart
  let strings ← many do
    let token ← peek
    match token.lexeme with
    | .string literal =>
      let form :=
        if literal.flags.has .format then Form.formatString token literal else .string token literal
      return some (← tokenNode (← advance) form)
    | _ => return none
  node start (.stringList strings)

/-- What stands between parentheses whose first is the given token: an empty tuple, a yielding
expression, a comprehension, a tuple or an expression. -/
def parenthesizedContent (opening : Token) : Parser NodeId := do
  if ← «at» .closeParenthesis then return ← tokenNode opening (.tuple [] true)
  if ← atKeyword .yield then return ← yieldExpression call
  let start ← currentStart
  let first ← testOrStar call
  if ← atComprehension then return ← comprehension call first start
  if !(← «at» .comma) then return first
  let rest ← more atExpressionEnd (testOrStar call)
  node start (.tuple (first :: rest) true)

/-- An expression in parentheses, from the first one on; its range grows to hold them. -/
def parenthesized : Parser NodeId := do
  let opening ← advance
  let expression ← parenthesizedContent call opening
  let closed ← took .closeParenthesis
  let stop ← previousStop
  modify fun s =>
    let arena := s.arena.extendRange expression opening.start stop
    { s with
      arena := arena.modify expression fun n => { n with form := n.form.parenthesize }
      widenedOwned := s.widenedOwned || (s.arena.parent? expression).isSome }
  closing closed expression ")" .missingTupleCloseParen

/-- The entries of a list display. -/
def listEntries : Parser (List NodeId) := do
  if ← «at» .closeBracket then return []
  let start ← currentStart
  let first ← testOrStar call
  if ← atComprehension then return [← comprehension call first start]
  let rest ← more atExpressionEnd (testOrStar call)
  return first :: rest

/-- A list display, from its bracket on. -/
def listDisplay : Parser NodeId := do
  let opening ← advance
  let entries ← listEntries call
  let closed ← took .closeBracket
  let display ← node opening.start (.list entries)
  closing closed display "]" .missingListCloseBracket

/-- Whether entries in braces cannot go on at the next token. -/
def atEntriesEnd : Parser Bool := do
  let kind := (← peek).kind
  return kind == .closeCurlyBrace || endsLine kind

/-- An entry in braces and whether its display is a dictionary; that is given unless it is the first
entry, which decides it by the colon after its key. -/
def braceEntry (given : Option Bool) : Parser (NodeId × Bool) := do
  let start ← currentStart
  match ← consumeOperator .power with
  | some mark =>
    let expression ← bitwiseOr call
    return (← node mark.start (.dictionaryExpandEntry expression), given.getD true)
  | none =>
    let key ← testOrStar call
    let isDictionary := given.getD (← «at» .colon)
    if !isDictionary then return (key, false)
    let _ ← expect .colon ":"
    let value ← call .test
    return (← node start (.dictionaryKeyEntry key value), true)

/-- The entries in braces and whether they are those of a dictionary. -/
def braceEntries : Parser (List NodeId × Bool) := do
  if ← atEntriesEnd then return ([], true)
  let start ← currentStart
  let (first, isDictionary) ← braceEntry call none
  if ← atComprehension then return ([← comprehension call first start], isDictionary)
  let rest ← more atEntriesEnd ((·.1) <$> braceEntry call (some isDictionary))
  return (first :: rest, isDictionary)

/-- A dictionary or set display, from its brace on. -/
def braceDisplay : Parser NodeId := do
  let opening ← advance
  let (entries, isDictionary) ← braceEntries call
  let _ ← expect .closeCurlyBrace "\x7d"
  node opening.start (if isDictionary then .dictionary entries else .set entries)

/-- Notes a missing expression; a token that could not go on with anything else is passed over. -/
def strayToken (token : Token) : Parser NodeId := do
  fault .expression
  let isStray := match token.lexeme with
    | .comma | .operator _ | .keyword _ => false
    | _ => !endsExpression token
  let _ ← advanceIf isStray
  errorNode .missingExpression none

/-- An atom: a name, a literal, a display or an expression in parentheses. -/
def atom : Parser NodeId := do
  let token ← peek
  match token.lexeme with
  | .identifier _ => nameNode (← advance)
  | .number literal => tokenNode (← advance) (.number literal)
  | .string _ => stringList
  | .keyword keyword =>
    if [Keyword.true, .false, .none, .debug].contains keyword then
      tokenNode (← advance) (.constant keyword)
    else strayToken token
  | .ellipsis => tokenNode (← advance) .ellipsis
  | .openParenthesis => parenthesized call
  | .openBracket => listDisplay call
  | .openCurlyBrace => braceDisplay call
  | _ => strayToken token

/-- A call, subscript or member after an expression, if one stands at the next token; with it,
whether another one may follow. -/
def trailer (expression : NodeId) : Parser (Option (NodeId × Bool)) := do
  let start := (← get).arena.startOf expression
  if ← took .openParenthesis then
    let arguments ← argumentList call
    let closed ← took .closeParenthesis
    let callNode ← node start (.call expression arguments)
    return some (← closing closed callNode ")" .missingCallCloseParen, closed)
  if ← took .openBracket then
    let items ← subscriptList call
    let closed ← took .closeBracket
    let indexNode ← node start (.index expression items)
    return some (← closing closed indexNode "]" .missingIndexCloseBracket, closed)
  if ← took .dot then
    match ← consume .identifier with
    | none =>
      fault .memberName
      return some (← errorNode .missingMemberAccessName (some expression), false)
    | some token =>
      let member ← nameNode token
      return some (← node start (.memberAccess expression member), true)
  return none

/-- An atom and the calls, subscripts and members after it. -/
def atomExpression : Parser NodeId := do
  let first ← atom call
  let (expression, _) ← foldMany (first, true) fun (expression, goesOn) =>
    if goesOn then trailer call expression else return none
  return expression

/-- What a parameter takes, by the stars in front of it. -/
def parameterCategory : Parser ParameterCategory := do
  if ← tookOperator .multiply then return .varArgList
  if ← tookOperator .power then return .varArgDictionary
  return .simple

/-- A parameter of a function; type hints are read only where they are allowed. -/
def parameter (allowHints : Bool) : Parser NodeId := do
  let start ← currentStart
  let category ← parameterCategory
  let title ← match ← consume .identifier with
    | some token => some <$> nameNode token
    | none => do
      if category == .simple then
        if !(← tookOperator .divide) then
          fault .parameterName
          let _ ← advance
      pure none
  let hint ←
    if allowHints && title.isSome then
      if ← took .colon then some <$> call .test else pure none
    else pure none
  let defaultValue ← if ← tookOperator .assign then some <$> call .test else pure none
  node start (.parameter category title hint defaultValue)

/-- The parameters of a function, up to the token that ends them. -/
def parameterList (terminator : TokenKind) (allowHints : Bool) : Parser (List NodeId) :=
  separated (do
    let kind := (← peek).kind
    return kind == terminator || endsLine kind) (parameter call allowHints)

/-- A function without a name, from its keyword on. -/
def lambda : Parser NodeId := do
  let start := (← advance).start
  let parameters ← parameterList call .colon false
  let _ ← expect .colon ":"
  let expression ← if ← atExpressionEnd then missingExpression else call .test
  node start (.lambda parameters expression)

end Rules

end TypeProbe.Grammar
