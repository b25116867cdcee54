import TypeProbe.Tree.Grammar.Expression

/-!
# Statements

The rules for lines of simple statements and for the statements that hold blocks. A block is a
suite, which starts at its colon; the range of a statement that holds blocks reaches over all of
them, since a node's range holds those of its children.
-/

namespace TypeProbe.Grammar

open TypeProbe.Parser

/-- Whether a simple statement may end at the next token. -/
def atStatementEnd : Parser Bool := do
  let kind := (← peek).kind
  return kind == .semicolon || endsLine kind

/-- A name after a keyword, if the keyword is the next token. -/
def nameAfter (keyword : Keyword) (missing : SyntaxFault) : Parser (Option NodeId) := do
  if ← tookKeyword keyword then some <$> name missing else return none

section Rules

variable (call : Rules)

/-- What is assigned: expressions or a yielding one. -/
def assigned : Parser NodeId := do
  if ← atKeyword .yield then yieldExpression call else testList call

/-- The rest of an assignment after its first target; further targets nest to the right. -/
def assignment (start : Nat) (left : NodeId) : Parser NodeId := do
  let rightStart ← currentStart
  let right ← assigned call
  let right ← if ← tookOperator .assign then call (.assignment rightStart right) else pure right
  node start (.assignment left right)

/-- Expressions, an assignment, or a name with its type hint. -/
def expressionStatement : Parser NodeId := do
  let start ← currentStart
  let left ← assigned call
  if ← took .colon then
    let hint ← call .test
    let hinted ← node start (.typeHint left hint)
    if !(← tookOperator .assign) then return hinted
    let right ← assigned call
    return ← node start (.assignment hinted right)
  if ← tookOperator .assign then return ← assignment call start left
  match (← peek).operator? with
  | none => return left
  | some op =>
    if !op.isAugmentedAssignment then return left
    let _ ← advance
    let right ← assigned call
    node start (.augmentedAssignment op left right)

/-- The dots in front of the name of a module. -/
def leadingDots : Parser Nat := do
  let dots ← many do
    if ← took .dot then return some 1
    if ← took .ellipsis then return some 3
    return none
  return dots.foldr (· + ·) 0

/-- The name of a module, part by part; dots in front of it are read only where they are allowed. -/
def moduleName (allowRelative : Bool) : Parser NodeId := do
  let start ← currentStart
  let dots ← if allowRelative then leadingDots else pure 0
  -- A part without a dot after it is the last one, even if another name follows.
  let (parts, goesOn) ← foldMany ([], true) fun (parts, goesOn) => do
    if !goesOn then return none
    match ← consume .identifier with
    | none => return none
    | some token =>
      let part ← nameNode token
      return some (part :: parts, ← took .dot)
  if goesOn && (dots == 0 || !parts.isEmpty) then fault .moduleName
  let stop := max (← previousStop) start
  addNode start stop (.moduleName dots parts.reverse (goesOn && !parts.isEmpty))

/-- One module of an import. -/
def importItem : Parser NodeId := do
  let start ← currentStart
  let source ← moduleName false
  let newName ← nameAfter .as .aliasName
  node start (.importAs source newName)

/-- An import of modules, from its keyword on. -/
def importStatement : Parser NodeId := do
  let start := (← advance).start
  let items ← separated neverStops importItem
  node start (.importList items)

/-- One symbol of an import from a module. -/
def importedSymbol : Parser NodeId := do
  let start ← currentStart
  let title ← name .importSymbolName
  let newName ← nameAfter .as .aliasSymbolName
  node start (.importFromAs title newName)

/-- The symbols of an import from a module, without the parentheses around them. -/
def importedSymbols : Parser (List NodeId) := do
  let stops : Parser Bool := return (← peek).kind != .identifier
  if ← stops then
    fault .importSymbols
    return []
  separated stops importedSymbol

/-- An import from a module, from its keyword on. -/
def fromStatement : Parser NodeId := do
  let start := (← advance).start
  let source ← moduleName true
  if !(← tookKeyword .import) then
    fault (.spelling "import")
    return ← node start (.importFrom source [] none false true)
  match ← consumeOperator .multiply with
  | some star => node start (.importFrom source [] (some star) false false)
  | none =>
    let usesParens ← took .openParenthesis
    let imports ← importedSymbols
    if usesParens then
      let _ ← expect .closeParenthesis ")"
    node start (.importFrom source imports none usesParens false)

/-- A raising statement, from its keyword on. -/
def raiseStatement : Parser NodeId := do
  let start := (← advance).start
  if ← atStatementEnd then return ← node start (.raise none none)
  let exception ← call .test
  let cause ← if ← tookKeyword .from then some <$> call .test else pure none
  node start (.raise (some exception) cause)

/-- A statement that is one keyword. -/
def keywordStatement (form : Form) : Parser NodeId := do tokenNode (← advance) form

/-- Names with commas between them. -/
def nameList : Parser (List NodeId) := separated neverStops (name .identifier)

/-- A statement without a block. -/
def simpleStatement : Parser NodeId := do
  let token ← peek
  match token.keyword? with
  | some .pass => keywordStatement .pass
  | some .break => keywordStatement .breakLoop
  | some .continue => keywordStatement .continueLoop
  | some .return =>
    let _ ← advance
    let expression ← if ← atStatementEnd then pure none else some <$> testList call
    node token.start (.returnValue expression)
  | some .raise => raiseStatement call
  | some .del =>
    let _ ← advance
    let targets ← testItems call
    node token.start (.del targets)
  | some .global =>
    let _ ← advance
    let names ← nameList
    node token.start (.global names)
  | some .nonlocal =>
    let _ ← advance
    let names ← nameList
    node token.start (.nonlocal names)
  | some .import => importStatement
  | some .from => fromStatement
  | some .assert =>
    let _ ← advance
    let condition ← call .test
    let message ← if ← took .comma then some <$> call .test else pure none
    node token.start (.assert condition message)
  | _ => expressionStatement call

/-- A simple statement and whether another one follows it on its line. -/
def lineStatement : Parser (NodeId × Bool) := do
  let statement ← simpleStatement call
  if ← took .semicolon then return (statement, !(← atEndOfLine))
  if !(← atEndOfLine) then
    fault .missingSeparator
    skipToEndOfLine
  return (statement, false)

/-- The simple statements of a line, and its end. -/
def statementList : Parser NodeId := do
  let start ← currentStart
  let first ← lineStatement call
  let (statements, _) ← foldMany ([first.1], first.2) fun (statements, goesOn) => do
    if !goesOn then return none
    let (statement, goesOn) ← lineStatement call
    return some (statement :: statements, goesOn)
  let line ← node start (.statementList statements.reverse)
  let _ ← consume .newLine
  return line

/-- What a round of reading a block yields: nothing at its end, or a statement unless it took a
token that is none. The dedentation that ends the block belongs to it. -/
def blockItem : Parser (Option (Option NodeId)) := do
  let token ← peek
  match token.lexeme with
  | .endOfStream => return none
  | .dedent _ matchesIndent =>
    let _ ← advance
    if !matchesIndent then faultAt token.range .inconsistentUnindent
    return none
  | .indent _ =>
    fault .unexpectedIndent
    let _ ← advance
    return some none
  | .newLine _ =>
    let _ ← advance
    return some none
  | _ => return some (some (← call .statement))

/-- A colon and a block, indented below it or on the same line. -/
def suite : Parser NodeId := do
  let start ← currentStart
  let colonStop ← match ← consume .colon with
    | some colon => pure colon.stop
    | none => do
      fault (.spelling ":")
      pure start
  if !(← took .newLine) then
    let statements ← if ← atEndOfLine then pure [] else List.singleton <$> statementList call
    return ← addNode start colonStop (.suite statements)
  if !(← took .indent) then
    fault .missingBlock
    return ← addNode start colonStop (.suite [])
  let statements := (← many (blockItem call)).filterMap id
  let last := statements.getLast?.bind (← get).arena.range?
  addNode start ((last.map TextRange.stop).getD start) (.suite statements)

/-- A block after a keyword, if the keyword is the next token. -/
def suiteAfter (keyword : Keyword) : Parser (Option NodeId) := do
  if ← tookKeyword keyword then some <$> suite call else return none

/-- A function definition that starts at an offset, after its keyword. -/
def functionFrom (start : Nat) (decorators : List NodeId) (isAsync : Bool) : Parser NodeId := do
  let title ← name .functionName
  if !(← took .openParenthesis) then
    fault (.spelling "(")
    let error ← errorNode .missingFunctionParameterList (some title)
    skipToEndOfLine
    return error
  let parameters ← parameterList call .closeParenthesis true
  let _ ← expect .closeParenthesis ")"
  let returnHint ← if ← took .arrow then some <$> call .test else pure none
  let body ← suite call
  addNode start start (.function decorators isAsync title parameters returnHint body)

/-- A function definition, from its keyword on; an asynchronous one starts before that. -/
def functionDefinition (decorators : List NodeId) (asyncStart : Option Nat) : Parser NodeId := do
  let keyword ← advance
  functionFrom call (asyncStart.getD keyword.start) decorators asyncStart.isSome

/-- A class definition, from its keyword on. -/
def classDefinition (decorators : List NodeId) : Parser NodeId := do
  let start := (← advance).start
  let title ← name .className
  let arguments ←
    if ← took .openParenthesis then do
      let arguments ← argumentList call
      let _ ← expect .closeParenthesis ")"
      pure arguments
    else pure []
  let body ← suite call
  addNode start start (.classDef decorators title arguments body)

/-- A decorator and its line, if one starts at the next token. -/
def decorator : Parser (Option NodeId) := do
  match ← consumeOperator .matrixMultiply with
  | none => return none
  | some mark =>
    let expression ←
      if ← atEndOfLine then do
        fault .decoratorName
        errorNode .missingDecoratorCallName none
      else call .test
    let decoratorNode ← node mark.start (.decorator expression)
    if !(← atEndOfLine) then
      fault .decoratorLineEnd
      skipToEndOfLine
    let _ ← consume .newLine
    return some decoratorNode

/-- Decorators and the definition after them; without one the decorators stand alone. -/
def decorated : Parser NodeId := do
  let decorators ← many (decorator call)
  let first := (← peek).keyword?
  let second := (← peekSecond).keyword?
  if first == some .define then return ← functionDefinition call decorators none
  if first == some .class then return ← classDefinition call decorators
  if first == some .async && second == some .define then
    let token ← advance
    return ← functionDefinition call decorators (some token.start)
  fault .decoratedDefinition
  let range := decorators.head?.bind (← get).arena.range?
  let start := (range.map (·.start)).getD (← currentStart)
  addNode start start (.statementList decorators)

/-- A conditional statement, from the keyword of a condition on. -/
def ifStatement : Parser NodeId := do
  let start := (← advance).start
  let condition ← call .test
  let ifSuite ← suite call
  let elseSuite ←
    if ← atKeyword .elif then some <$> call .ifStatement else suiteAfter call .else
  addNode start start (.ifElse condition ifSuite elseSuite)

/-- A loop under a condition, from its keyword on. -/
def whileStatement : Parser NodeId := do
  let start := (← advance).start
  let condition ← call .test
  let body ← suite call
  let elseSuite ← suiteAfter call .else
  addNode start start (.whileLoop condition body elseSuite)

/-- A loop over the items of a value, from its keyword on; an asynchronous one starts before
that. -/
def forStatement (asyncStart : Option Nat) : Parser NodeId := do
  let start := asyncStart.getD (← advance).start
  let target ← targetList call
  let iterable ←
    if ← tookKeyword .in then testList call
    else do
      fault (.spelling "in")
      errorNode .missingIn none
  let body ← suite call
  let elseSuite ← suiteAfter call .else
  addNode start start (.forLoop asyncStart.isSome target iterable body elseSuite)

/-- What is done on some exceptions, if the next token is its keyword. -/
def exceptClause : Parser (Option NodeId) := do
  match ← consumeKeyword .except with
  | none => return none
  | some token =>
    let (typeExpression, title) ←
      if ← «at» .colon then pure (none, none)
      else do
        let expression ← call .test
        pure (some expression, ← nameAfter .as .exceptionName)
    let body ← suite call
    return some (← tokenNode token (.except typeExpression title body))

/-- A block that may fail and what is done then, from its keyword on. -/
def tryStatement : Parser NodeId := do
  let start := (← advance).start
  let body ← suite call
  let clauses ← many (exceptClause call)
  let elseSuite ← if clauses.isEmpty then pure none else suiteAfter call .else
  let finallySuite ← suiteAfter call .finally
  if clauses.isEmpty && finallySuite.isNone then fault .tryAlone
  addNode start start (.tryExcept body clauses elseSuite finallySuite)

/-- A managed value and the target it is bound to. -/
def withItem : Parser NodeId := do
  let start ← currentStart
  let expression ← call .test
  let target ← if ← tookKeyword .as then some <$> targetList call else pure none
  node start (.withItem expression target)

/-- A block with managed values, from its keyword on; an asynchronous one starts before that. -/
def withStatement (asyncStart : Option Nat) : Parser NodeId := do
  let start := asyncStart.getD (← advance).start
  let items ← separated neverStops (withItem call)
  let body ← suite call
  addNode start start (.withBlock asyncStart.isSome items body)

/-- An asynchronous definition or block. -/
def asyncStatement : Parser NodeId := do
  match (← peekSecond).keyword? with
  | some .define =>
    let token ← advance
    functionDefinition call [] (some token.start)
  | some .for =>
    let token ← advance
    forStatement call (some token.start)
  | some .with =>
    let token ← advance
    withStatement call (some token.start)
  | _ =>
    fault .asyncAlone
    statementList call

/-- A statement with blocks, or a line of simple statements. -/
def statement : Parser NodeId := do
  match (← peek).lexeme with
  | .keyword .define => functionDefinition call [] none
  | .keyword .class => classDefinition call []
  | .keyword .if => ifStatement call
  | .keyword .while => whileStatement call
  | .keyword .for => forStatement call none
  | .keyword .try => tryStatement call
  | .keyword .with => withStatement call none
  | .keyword .async => asyncStatement call
  | .operator .matrixMultiply => decorated call
  | _ => statementList call

/-- What a round of reading a whole text yields: nothing at its end, or a statement unless it took a
token that is none. -/
def moduleItem : Parser (Option (Option NodeId)) := do
  match (← peek).lexeme with
  | .endOfStream => return none
  | .newLine _ =>
    let _ ← advance
    return some none
  | .indent _ =>
    fault .unexpectedIndent
    let _ ← advance
    return some none
  | .dedent _ _ =>
    fault .unexpectedUnindent
    let _ ← advance
    return some none
  | _ => return some (some (← call .statement))

/-- All statements of a text of the given number of bytes. -/
def module (length : Nat) : Parser NodeId := do
  let statements := (← many (moduleItem call)).filterMap id
  addNode 0 length (.module statements)

end Rules

end TypeProbe.Grammar
