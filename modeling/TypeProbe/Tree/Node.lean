import TypeProbe.Token.Basic

/-!
# Nodes of a syntax tree

A node has a place in the text, a parent, and a `Form`: what construct it is, with the ids of the
nodes it is made of. `Form.children` lists those ids in the order of the text, `Form.kind` names the
construct, and `NodeKind.isExpression` says which constructs have a value.
-/

namespace TypeProbe

/-- The number of a node within its tree. -/
abbrev NodeId := Nat

/-- The constructs of the language. -/
inductive NodeKind where
  | error | argument | assert | assignment | assignmentExpression | augmentedAssignment | await
  | binaryOperation | «break» | call | «class» | constant | «continue» | decorator | del
  | dictionary | dictionaryExpandEntry | dictionaryKeyEntry | ellipsis | «if» | «import»
  | importAs | importFrom | importFromAs | index | except | «for» | formatString | function
  | global | lambda | list | listComprehension | listComprehensionFor | listComprehensionIf
  | memberAccess | module | moduleName | name | nonlocal | number | parameter | pass | raise
  | «return» | set | slice | statementList | stringList | string | suite | ternary | tuple
  | «try» | typeHint | unaryOperation | unpack | «while» | «with» | withItem | yield | yieldFrom
deriving DecidableEq, Inhabited, Repr

namespace NodeKind

/-- Every construct with its label. -/
def table : List (NodeKind × String) := [
  (.error, "Error"), (.argument, "Argument"), (.assert, "Assert"), (.assignment, "Assignment"),
  (.assignmentExpression, "AssignmentExpression"), (.augmentedAssignment, "AugmentedAssignment"),
  (.await, "Await"), (.binaryOperation, "BinaryOperation"), (.break, "Break"), (.call, "Call"),
  (.class, "Class"), (.constant, "Constant"), (.continue, "Continue"), (.decorator, "Decorator"),
  (.del, "Del"), (.dictionary, "Dictionary"), (.dictionaryExpandEntry, "DictionaryExpandEntry"),
  (.dictionaryKeyEntry, "DictionaryKeyEntry"), (.ellipsis, "Ellipsis"), (.if, "If"),
  (.import, "Import"), (.importAs, "ImportAs"), (.importFrom, "ImportFrom"),
  (.importFromAs, "ImportFromAs"), (.index, "Index"), (.except, "Except"), (.for, "For"),
  (.formatString, "FormatString"), (.function, "Function"), (.global, "Global"),
  (.lambda, "Lambda"), (.list, "List"), (.listComprehension, "ListComprehension"),
  (.listComprehensionFor, "ListComprehensionFor"), (.listComprehensionIf, "ListComprehensionIf"),
  (.memberAccess, "MemberAccess"), (.module, "Module"), (.moduleName, "ModuleName"),
  (.name, "Name"), (.nonlocal, "Nonlocal"), (.number, "Number"), (.parameter, "Parameter"),
  (.pass, "Pass"), (.raise, "Raise"), (.return, "Return"), (.set, "Set"), (.slice, "Slice"),
  (.statementList, "StatementList"), (.stringList, "StringList"), (.string, "String"),
  (.suite, "Suite"), (.ternary, "Ternary"), (.tuple, "Tuple"), (.try, "Try"),
  (.typeHint, "TypeAnnotation"), (.unaryOperation, "UnaryOperation"), (.unpack, "Unpack"),
  (.while, "While"), (.with, "With"), (.withItem, "WithItem"), (.yield, "Yield"),
  (.yieldFrom, "YieldFrom")]

instance : Labelled NodeKind where
  members := table.map (·.1)
  label k := ((table.find? (·.1 == k)).map (·.2)).getD ""

/-- Whether a construct is an expression; the others are statements or parts of constructs. -/
def isExpression : NodeKind → Bool
  | .error | .unaryOperation | .binaryOperation | .assignmentExpression | .typeHint | .await
  | .ternary | .unpack | .tuple | .call | .listComprehension | .index | .slice | .yield
  | .yieldFrom | .memberAccess | .lambda | .name | .constant | .ellipsis | .number | .string
  | .formatString | .stringList | .dictionary | .list | .set => true
  | _ => false

end NodeKind

/-- What was missing where an error node stands. -/
inductive ErrorCategory where
  | missingIn | missingElse | missingExpression | missingIndexOrSlice | missingDecoratorCallName
  | missingCallCloseParen | missingIndexCloseBracket | missingMemberAccessName
  | missingTupleCloseParen | missingListCloseBracket | missingFunctionParameterList
  | maxDepthExceeded
deriving DecidableEq, Inhabited, Repr

instance : Labelled ErrorCategory where
  members := [.missingIn, .missingElse, .missingExpression, .missingIndexOrSlice,
    .missingDecoratorCallName, .missingCallCloseParen, .missingIndexCloseBracket,
    .missingMemberAccessName, .missingTupleCloseParen, .missingListCloseBracket,
    .missingFunctionParameterList, .maxDepthExceeded]
  label
    | .missingIn => "MissingIn" | .missingElse => "MissingElse"
    | .missingExpression => "MissingExpression" | .missingIndexOrSlice => "MissingIndexOrSlice"
    | .missingDecoratorCallName => "MissingDecoratorCallName"
    | .missingCallCloseParen => "MissingCallCloseParen"
    | .missingIndexCloseBracket => "MissingIndexCloseBracket"
    | .missingMemberAccessName => "MissingMemberAccessName"
    | .missingTupleCloseParen => "MissingTupleCloseParen"
    | .missingListCloseBracket => "MissingListCloseBracket"
    | .missingFunctionParameterList => "MissingFunctionParameterList"
    | .maxDepthExceeded => "MaxDepthExceeded"

/-- How an argument is passed: as it is, or unpacked from a list or a dictionary. -/
inductive ArgumentCategory where
  | simple | unpackedList | unpackedDictionary
deriving DecidableEq, Inhabited, Repr

instance : Labelled ArgumentCategory where
  members := [.simple, .unpackedList, .unpackedDictionary]
  label
    | .simple => "Simple" | .unpackedList => "UnpackedList"
    | .unpackedDictionary => "UnpackedDictionary"

/-- What a parameter takes: one argument, all further ones, or all further named ones. -/
inductive ParameterCategory where
  | simple | varArgList | varArgDictionary
deriving DecidableEq, Inhabited, Repr

instance : Labelled ParameterCategory where
  members := [.simple, .varArgList, .varArgDictionary]
  label
    | .simple => "Simple" | .varArgList => "VarArgList" | .varArgDictionary => "VarArgDictionary"

/-- What construct a node is, with the nodes it is made of. -/
inductive Form where
  | error (category : ErrorCategory) (child : Option NodeId)
  | argument (category : ArgumentCategory) (name : Option NodeId) (value : NodeId)
  | assert (test : NodeId) (message : Option NodeId)
  | assignment (left right : NodeId)
  | assignmentExpression (name right : NodeId)
  | augmentedAssignment (operator : Operator) (left right : NodeId)
  | await (expression : NodeId)
  | binaryOperation (operator : Operator) (token : Token) (left right : NodeId)
      (parenthesized : Bool)
  | breakLoop
  | call (callee : NodeId) (arguments : List NodeId)
  | classDef (decorators : List NodeId) (name : NodeId) (arguments : List NodeId) (suite : NodeId)
  | constant (keyword : Keyword)
  | continueLoop
  | decorator (expression : NodeId)
  | del (targets : List NodeId)
  | dictionary (entries : List NodeId)
  | dictionaryExpandEntry (expression : NodeId)
  | dictionaryKeyEntry (key value : NodeId)
  | ellipsis
  | ifElse (test ifSuite : NodeId) (elseSuite : Option NodeId)
  | importList (items : List NodeId)
  | importAs (module : NodeId) (newName : Option NodeId)
  | importFrom (module : NodeId) (imports : List NodeId) (wildcard : Option Token)
      (usesParens missingImportKeyword : Bool)
  | importFromAs (name : NodeId) (newName : Option NodeId)
  | index (base : NodeId) (items : List NodeId)
  | except (typeExpression name : Option NodeId) (suite : NodeId)
  | forLoop (isAsync : Bool) (target iterable suite : NodeId) (elseSuite : Option NodeId)
  | formatString (token : Token) (literal : StringLiteral)
  | function (decorators : List NodeId) (isAsync : Bool) (name : NodeId) (parameters : List NodeId)
      (returnHint : Option NodeId) (suite : NodeId)
  | global (names : List NodeId)
  | lambda (parameters : List NodeId) (expression : NodeId)
  | list (entries : List NodeId)
  | comprehension (expression : NodeId) (clauses : List NodeId)
  | comprehensionFor (isAsync : Bool) (target iterable : NodeId)
  | comprehensionIf (test : NodeId)
  | memberAccess (left member : NodeId)
  | module (statements : List NodeId)
  | moduleName (leadingDots : Nat) (parts : List NodeId) (hasTrailingDot : Bool)
  | name (token : Token) (value : String)
  | nonlocal (names : List NodeId)
  | number (literal : NumberLiteral)
  | parameter (category : ParameterCategory) (name hint defaultValue : Option NodeId)
  | pass
  | raise (exception cause : Option NodeId)
  | returnValue (expression : Option NodeId)
  | set (entries : List NodeId)
  | slice (start stop step : Option NodeId)
  | statementList (statements : List NodeId)
  | stringList (strings : List NodeId)
  | string (token : Token) (literal : StringLiteral)
  | suite (statements : List NodeId)
  | ternary (ifExpression test elseExpression : NodeId)
  | tuple (items : List NodeId) (enclosedInParens : Bool)
  | tryExcept (suite : NodeId) (clauses : List NodeId) (elseSuite finallySuite : Option NodeId)
  | typeHint (value hint : NodeId)
  | unaryOperation (operator : Operator) (token : Token) (expression : NodeId)
  | unpack (expression : NodeId)
  | whileLoop (test suite : NodeId) (elseSuite : Option NodeId)
  | withBlock (isAsync : Bool) (items : List NodeId) (suite : NodeId)
  | withItem (expression : NodeId) (target : Option NodeId)
  | yield (expression : Option NodeId)
  | yieldFrom (expression : NodeId)
deriving DecidableEq, Inhabited, Repr

namespace Form

/-- The construct. -/
def kind : Form → NodeKind
  | .error .. => .error
  | .argument .. => .argument
  | .assert .. => .assert
  | .assignment .. => .assignment
  | .assignmentExpression .. => .assignmentExpression
  | .augmentedAssignment .. => .augmentedAssignment
  | .await .. => .await
  | .binaryOperation .. => .binaryOperation
  | .breakLoop => .break
  | .call .. => .call
  | .classDef .. => .class
  | .constant .. => .constant
  | .continueLoop => .continue
  | .decorator .. => .decorator
  | .del .. => .del
  | .dictionary .. => .dictionary
  | .dictionaryExpandEntry .. => .dictionaryExpandEntry
  | .dictionaryKeyEntry .. => .dictionaryKeyEntry
  | .ellipsis => .ellipsis
  | .ifElse .. => .if
  | .importList .. => .import
  | .importAs .. => .importAs
  | .importFrom .. => .importFrom
  | .importFromAs .. => .importFromAs
  | .index .. => .index
  | .except .. => .except
  | .forLoop .. => .for
  | .formatString .. => .formatString
  | .function .. => .function
  | .global .. => .global
  | .lambda .. => .lambda
  | .list .. => .list
  | .comprehension .. => .listComprehension
  | .comprehensionFor .. => .listComprehensionFor
  | .comprehensionIf .. => .listComprehensionIf
  | .memberAccess .. => .memberAccess
  | .module .. => .module
  | .moduleName .. => .moduleName
  | .name .. => .name
  | .nonlocal .. => .nonlocal
  | .number .. => .number
  | .parameter .. => .parameter
  | .pass => .pass
  | .raise .. => .raise
  | .returnValue .. => .return
  | .set .. => .set
  | .slice .. => .slice
  | .statementList .. => .statementList
  | .stringList .. => .stringList
  | .string .. => .string
  | .suite .. => .suite
  | .ternary .. => .ternary
  | .tuple .. => .tuple
  | .tryExcept .. => .try
  | .typeHint .. => .typeHint
  | .unaryOperation .. => .unaryOperation
  | .unpack .. => .unpack
  | .whileLoop .. => .while
  | .withBlock .. => .with
  | .withItem .. => .withItem
  | .yield .. => .yield
  | .yieldFrom .. => .yieldFrom

/-- The nodes a construct is made of, in the order of the text. -/
def children : Form → List NodeId
  | .error _ child => child.toList
  | .argument _ title value => title.toList ++ [value]
  | .assert test message => test :: message.toList
  | .assignment left right => [left, right]
  | .assignmentExpression title right => [title, right]
  | .augmentedAssignment _ left right => [left, right]
  | .await expression => [expression]
  | .binaryOperation _ _ left right _ => [left, right]
  | .call callee arguments => callee :: arguments
  | .classDef decorators title arguments body => decorators ++ title :: (arguments ++ [body])
  | .decorator expression => [expression]
  | .del targets => targets
  | .dictionary entries => entries
  | .dictionaryExpandEntry expression => [expression]
  | .dictionaryKeyEntry key value => [key, value]
  | .ifElse test ifSuite elseSuite => test :: ifSuite :: elseSuite.toList
  | .importList items => items
  | .importAs source newName => source :: newName.toList
  | .importFrom source imports _ _ _ => source :: imports
  | .importFromAs title newName => title :: newName.toList
  | .index base items => base :: items
  | .except typeExpression title body => typeExpression.toList ++ title.toList ++ [body]
  | .forLoop _ target iterable body elseSuite => target :: iterable :: body :: elseSuite.toList
  | .function decorators _ title parameters returnHint body =>
    decorators ++ title :: (parameters ++ returnHint.toList ++ [body])
  | .global names => names
  | .lambda parameters expression => parameters ++ [expression]
  | .list entries => entries
  | .comprehension expression clauses => expression :: clauses
  | .comprehensionFor _ target iterable => [target, iterable]
  | .comprehensionIf test => [test]
  | .memberAccess left member => [left, member]
  | .module statements => statements
  | .moduleName _ parts _ => parts
  | .nonlocal names => names
  | .parameter _ title hint defaultValue => title.toList ++ hint.toList ++ defaultValue.toList
  | .raise exception cause => exception.toList ++ cause.toList
  | .returnValue expression => expression.toList
  | .set entries => entries
  | .slice start stop step => start.toList ++ stop.toList ++ step.toList
  | .statementList statements => statements
  | .stringList strings => strings
  | .suite statements => statements
  | .ternary ifExpression test elseExpression => [ifExpression, test, elseExpression]
  | .tuple items _ => items
  | .tryExcept body clauses elseSuite finallySuite =>
    body :: (clauses ++ elseSuite.toList ++ finallySuite.toList)
  | .typeHint value hint => [value, hint]
  | .unaryOperation _ _ expression => [expression]
  | .unpack expression => [expression]
  | .whileLoop test body elseSuite => test :: body :: elseSuite.toList
  | .withBlock _ items body => items ++ [body]
  | .withItem expression target => expression :: target.toList
  | .yield expression => expression.toList
  | .yieldFrom expression => [expression]
  | .breakLoop | .continueLoop | .constant _ | .ellipsis | .formatString .. | .name .. | .number _
  | .pass | .string .. => []

/-- The construct with the note that it stands between parentheses, where it keeps one. -/
def parenthesize : Form → Form
  | .binaryOperation op token left right _ => .binaryOperation op token left right true
  | .tuple items _ => .tuple items true
  | form => form

end Form

/-- A node of a tree. -/
structure Node where
  /-- Where it stands in the text. -/
  range : TextRange
  /-- The node it is part of, if it is part of one. -/
  parent : Option NodeId
  /-- What construct it is. -/
  form : Form
deriving DecidableEq, Inhabited, Repr

/-- The construct of a node. -/
def Node.kind (n : Node) : NodeKind := n.form.kind

end TypeProbe
