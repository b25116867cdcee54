import TypeProbe.Inference.Builtins
import TypeProbe.Scope.Basic

/-!
# Programs

A `Program` is a module whose types are asked for: its tree, what is known of its names, its own
name, and the handles of what is known beforehand. This module answers what can be read off the tree
without types: which definition a node belongs to, the full name of a definition
(`Program.qualifiedName`), the text at the start of a body, and whether the end of a body can be
reached (`Program.fallsThrough`).
-/

namespace TypeProbe

/-- A module whose types are asked for. -/
structure Program where
  /-- Its tree. -/
  arena : Arena
  /-- What is known of its names. -/
  bindings : Bindings
  /-- Its name. -/
  moduleName : String
  /-- The handles of what is known beforehand. -/
  builtins : Builtins

namespace Program

/-- Whether a node defines a class. -/
def isClass (p : Program) (node : NodeId) : Bool := p.arena.kind? node == some .class

/-- Whether a node defines a function that has a name. -/
def isFunction (p : Program) (node : NodeId) : Bool := p.arena.kind? node == some .function

/-- Whether a node defines a class or a function that has a name. -/
def isDefinition (p : Program) (node : NodeId) : Bool := p.isClass node || p.isFunction node

/-- Goes from a scope outwards, at most `fuel` steps, to the first one that a definition opened. -/
def definitionFrom (p : Program) : (fuel : Nat) → (current : Option ScopeId) → Option NodeId
  | 0, _ => none
  | _, none => none
  | fuel + 1, some id =>
    match p.bindings.scope? id with
    | none => none
    | some scope =>
      if p.isDefinition scope.node then some scope.node else p.definitionFrom fuel scope.parent

/-- The nearest definition whose body a node is in. -/
def enclosingDefinition? (p : Program) (node : NodeId) : Option NodeId :=
  p.definitionFrom (p.bindings.scopes.size + 1) (some (p.bindings.scopeContaining p.arena node))

/-- The class whose body a definition is directly in. -/
def enclosingClass? (p : Program) (node : NodeId) : Option NodeId :=
  (p.enclosingDefinition? node).filter p.isClass

/-- The name that a definition gives to what it defines. -/
def definitionName (p : Program) (node : NodeId) : String :=
  match p.arena.form? node with
  | some (.function _ _ name _ _ _) | some (.classDef _ name _ _) => (p.arena.nameOf? name).getD ""
  | _ => ""

/-- The names of the definitions around a node, from the inside out, at most `fuel` of them. -/
def outerNames (p : Program) : (fuel : Nat) → NodeId → List String
  | 0, _ => []
  | fuel + 1, node =>
    match p.enclosingDefinition? node with
    | some outer => p.definitionName outer :: p.outerNames fuel outer
    | none => []

/-- A name after those of the module and of the definitions around a node. -/
def qualifiedName (p : Program) (node : NodeId) (name : String) : String :=
  let outer := p.outerNames p.arena.size node ++ (if p.moduleName = "" then [] else [p.moduleName])
  ".".intercalate (outer.reverse ++ [name])

/-- The full name of a definition. -/
def fullName (p : Program) (definition : NodeId) : String :=
  p.qualifiedName definition (p.definitionName definition)

/-- The name of a module as an import spells it. -/
def importedModule (p : Program) (node : NodeId) : String :=
  match p.arena.form? node with
  | some (.moduleName dots parts _) =>
    String.ofList (List.replicate dots '.') ++ ".".intercalate (parts.filterMap p.arena.nameOf?)
  | _ => ""

/-- The value of an argument. -/
def argumentValue? (p : Program) (argument : NodeId) : Option NodeId :=
  match p.arena.form? argument with
  | some (.argument _ _ value) => some value
  | _ => none

/-- The word in front of an argument's value. -/
def argumentKeyword? (p : Program) (keyword : Option NodeId) : Option String :=
  keyword.bind p.arena.nameOf?

/-- The expression of a decorator. -/
def decoratorExpression? (p : Program) (decorator : NodeId) : Option NodeId :=
  match p.arena.form? decorator with
  | some (.decorator expression) => some expression
  | _ => none

/-- The texts of strings in a row, put together; none if one of them is formatted. -/
def plainText? (p : Program) (strings : List NodeId) : Option String :=
  (strings.mapM fun string =>
    match p.arena.form? string with
    | some (.string _ literal) => some literal.value
    | _ => none).map String.join

/-- The text at the start of a body, if it starts with one. -/
def docText? (p : Program) (body : NodeId) : Option String :=
  match p.arena.form? body with
  | some (.suite (line :: _)) =>
    match p.arena.form? line with
    | some (.statementList (statement :: _)) =>
      match p.arena.form? statement with
      | some (.stringList strings) => p.plainText? strings
      | _ => none
    | _ => none
  | _ => none

/-- Whether a statement leaves the function. -/
def leavesFunction (p : Program) (statement : NodeId) : Bool :=
  match p.arena.form? statement with
  | some (.returnValue _) | some (.raise _ _) => true
  | _ => false

/-- Whether the end of a block can be reached, looking at most `fuel` levels deep. -/
def fallsThroughAt (p : Program) : (fuel : Nat) → NodeId → Bool
  | 0, _ => true
  | fuel + 1, node =>
    match p.arena.form? node with
    | some (.suite statements) =>
      match statements.getLast? with
      | some last => p.fallsThroughAt fuel last
      | none => true
    | some (.statementList statements) =>
      match statements.getLast? with
      | some last => !p.leavesFunction last
      | none => true
    | some (.ifElse _ body (some otherwise)) =>
      p.fallsThroughAt fuel body || p.fallsThroughAt fuel otherwise
    | _ => true

/-- Whether the end of a block can be reached: unless its last line ends by leaving the function, or
is a condition of which both branches do. -/
def fallsThrough (p : Program) (body : NodeId) : Bool := p.fallsThroughAt p.arena.size body

/-- Where the expression stands from which a declaration takes its value. A name in there is not yet
the declared one. -/
def valueRange? (p : Program) (d : Declaration) : Option TextRange :=
  match d.source with
  | none => none
  | some source =>
    match p.arena.form? source with
    | none => none
    | some (.forLoop _ _ iterable _ _) | some (.comprehensionFor _ _ iterable) =>
      p.arena.range? iterable
    | some (.withItem expression _) => p.arena.range? expression
    | some (.except typeExpression _ _) => typeExpression.bind p.arena.range?
    | some (.augmentedAssignment _ _ right) => p.arena.range? right
    | some _ => p.arena.range? source

/-- Whether a declaration has taken effect where a node stands: it stands before the node, and the
node is not in the expression from which it takes its value. -/
def precedes (p : Program) (usageStart : Nat) (d : Declaration) : Bool :=
  let endsBefore := match p.arena.range? d.node with
    | some range => decide (range.stop ≤ usageStart)
    | none => false
  let readsItself := match p.valueRange? d with
    | some range => range.touches usageStart
    | none => false
  endsBefore && !readsItself

/-- The declaration that starts last; of several the last one. -/
def latest? (p : Program) (ds : List Declaration) : Option Declaration :=
  ds.foldl (fun best d =>
    match best with
    | some b => if p.arena.startOf b.node ≤ p.arena.startOf d.node then some d else some b
    | none => some d) none

end Program

end TypeProbe
