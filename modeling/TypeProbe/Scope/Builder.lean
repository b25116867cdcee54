import TypeProbe.Scope.Basic

/-!
# Collecting declarations

`Bindings.ofTree` walks a tree once, from the root down and in the order of the text, and notes
scopes, declarations, and what belongs to functions and classes. What a definition evaluates before
its body exists is walked before its scope is opened.
-/

namespace TypeProbe

/-- A function around the place that is walked. -/
structure FunctionFrame where
  /-- The node of the function. -/
  node : NodeId
  /-- For a method, its class and the name of its first parameter. -/
  receiver : Option (NodeId × String)
deriving DecidableEq, Inhabited, Repr

/-- Where a walk stands. -/
structure WalkContext where
  /-- The innermost scope. -/
  scope : ScopeId
  /-- The innermost function, if the place belongs to one. -/
  function : Option FunctionFrame
deriving DecidableEq, Inhabited, Repr

/-- A computation that adds to bindings. -/
abbrev Binder := StateM Bindings

namespace Binder

/-- A scope that exists, or else an empty one of the module. -/
def scopeAt (id : ScopeId) : Binder Scope := return ((← get).scope? id).getD default

/-- Opens a scope. -/
def openScope (kind : ScopeKind) (node : NodeId) (parent : Option ScopeId) : Binder ScopeId :=
  modifyGet fun b =>
    (b.scopes.size, { b with scopes := b.scopes.push ⟨kind, node, parent, [], [], []⟩ })

/-- Changes a scope. -/
def modifyScope (id : ScopeId) (change : Scope → Scope) : Binder Unit :=
  modify fun b => { b with scopes := b.scopes.modify id change }

/-- Goes from a scope outwards to the first function that has the name already. -/
def functionWith (b : Bindings) (name : String) : (fuel : Nat) → Option ScopeId → Option ScopeId
  | 0, _ => none
  | _, none => none
  | fuel + 1, some id =>
    match b.scope? id with
    | none => none
    | some scope =>
      if scope.kind == .function && (scope.symbols.get? name).isSome then some id
      else functionWith b name fuel scope.parent

/-- The scope that receives a new declaration of a name made in `scope`: the module for a global
name, the nearest function around that has it for a nonlocal one, else the scope itself. -/
def targetScope (scope : ScopeId) (name : String) : Binder ScopeId := do
  let b ← get
  let here ← scopeAt scope
  if here.globals.contains name then return Bindings.moduleScope
  if here.nonlocals.contains name then
    return (functionWith b name (b.scopes.size + 1) here.parent).getD scope
  return scope

/-- Notes a declaration of a name made in `scope`. The empty name, which stands for a missing one,
is not declared. -/
def declare (scope : ScopeId) (name : String) (declaration : Declaration) : Binder Unit := do
  if name.isEmpty then return
  let target ← targetScope scope name
  modify fun b => { b with declarations := (declaration.node, declaration) :: b.declarations }
  modifyScope target fun s =>
    { s with symbols := s.symbols.alter name [] (· ++ [declaration]) }

/-- Notes a declaration of the name that a name node spells. -/
def declareNode (a : Arena) (scope : ScopeId) (node : NodeId) (declaration : Declaration) :
    Binder Unit := do
  match a.nameOf? node with
  | some name => declare scope name declaration
  | none => return

/-- Notes that a method gives a member to its object, if `left` is the name of its first
parameter. -/
def bindMember (a : Arena) (context : WalkContext) (target left member : NodeId)
    (source hint : Option NodeId) : Binder Unit := do
  match context.function.bind (·.receiver), a.nameOf? member with
  | some (classNode, receiver), some name =>
    if a.nameOf? left == some receiver then
      let declaration : Declaration := ⟨.variable, target, source, hint, []⟩
      modify fun b => { b with
        declarations := (target, declaration) :: b.declarations
        members := b.members ++ [(classNode, name, declaration)] }
  | _, _ => return

/-- Declares every name that a target binds. A starred target has no source, since it collects an
unknown number of values. `fuel` bounds the nesting of targets. -/
def bindTarget (a : Arena) (context : WalkContext) : (fuel : Nat) → (target : NodeId) →
    (source hint : Option NodeId) → (path : List Nat) → Binder Unit
  | 0, _, _, _, _ => return
  | fuel + 1, target, source, hint, path => do
    match a.form? target with
    | some (.name _ value) =>
      declare context.scope value ⟨.variable, target, source, hint, path⟩
    | some (.typeHint value hint) => bindTarget a context fuel value source (some hint) path
    | some (.tuple entries _) | some (.list entries) =>
      for (element, i) in entries.zipIdx do
        bindTarget a context fuel element source none (path ++ [i])
    | some (.unpack expression) => bindTarget a context fuel expression none none []
    | some (.memberAccess left member) => bindMember a context target left member source hint
    | _ => return

/-- Declares every name that a target binds to what comes from `source`. -/
def bind (a : Arena) (context : WalkContext) (target : NodeId) (source hint : Option NodeId) :
    Binder Unit := bindTarget a context (a.size + 1) target source hint []

/-- The value at the far right of nested assignments. -/
def assignedValue (a : Arena) : (fuel : Nat) → NodeId → NodeId
  | 0, right => right
  | fuel + 1, right =>
    match a.form? right with
    | some (.assignment _ inner) => assignedValue a fuel inner
    | _ => right

/-- The innermost scope around that is no comprehension. -/
def beyondComprehensions (b : Bindings) : (fuel : Nat) → ScopeId → ScopeId
  | 0, scope => scope
  | fuel + 1, scope =>
    match b.scope? scope with
    | some ⟨.comprehension, _, some parent, _, _, _⟩ => beyondComprehensions b fuel parent
    | _ => scope

/-- Declares the parameters of a function in its scope. -/
def declareParameters (a : Arena) (scope : ScopeId) (parameters : List NodeId) : Binder Unit := do
  for parameter in parameters do
    match a.form? parameter with
    | some (.parameter _ (some name) hint _) =>
      declareNode a scope name { Declaration.plain .parameter parameter with hint }
    | _ => pure ()

/-- For a function defined in a class, the class and the name of the function's first parameter. -/
def receiverOf (a : Arena) (scope : Scope) (parameters : List NodeId) :
    Option (NodeId × String) :=
  if scope.kind != .class then none
  else match parameters.head?.bind a.form? with
    | some (.parameter _ (some name) _ _) => (a.nameOf? name).map fun text => (scope.node, text)
    | _ => none

section Walk

variable (a : Arena) (walk : WalkContext → NodeId → Binder Unit)

/-- Walks the type hints and default values of parameters. -/
def walkParameters (context : WalkContext) (parameters : List NodeId) : Binder Unit := do
  for parameter in parameters do
    match a.form? parameter with
    | some (.parameter _ _ hint defaultValue) =>
      for child in hint.toList ++ defaultValue.toList do walk context child
    | _ => pure ()

/-- Walks a class: its decorators and arguments outside of its scope, its body inside. -/
def walkClass (context : WalkContext) (node : NodeId) (decorators : List NodeId) (name : NodeId)
    (arguments : List NodeId) (suite : NodeId) : Binder Unit := do
  for child in decorators ++ arguments do walk context child
  declareNode a context.scope name (Declaration.plain .class node)
  let scope ← openScope .class node (some context.scope)
  walk { context with scope } suite

/-- Walks a function: its decorators, parameters and return hint outside of its scope, its body
inside. -/
def walkFunction (context : WalkContext) (node : NodeId) (decorators : List NodeId) (name : NodeId)
    (parameters : List NodeId) (returnHint : Option NodeId) (suite : NodeId) : Binder Unit := do
  for child in decorators do walk context child
  walkParameters a walk context parameters
  for child in returnHint.toList do walk context child
  declareNode a context.scope name (Declaration.plain .function node)
  let receiver := receiverOf a (← scopeAt context.scope) parameters
  let scope ← openScope .function node (some context.scope)
  declareParameters a scope parameters
  walk ⟨scope, some ⟨node, receiver⟩⟩ suite

/-- Walks a function without a name: its parameters outside of its scope, its value inside. -/
def walkLambda (context : WalkContext) (node : NodeId) (parameters : List NodeId)
    (expression : NodeId) : Binder Unit := do
  walkParameters a walk context parameters
  let scope ← openScope .lambda node (some context.scope)
  declareParameters a scope parameters
  walk ⟨scope, some ⟨node, none⟩⟩ expression

/-- Walks a clause of a comprehension, inside of its scope. What its first clause goes through has
been walked outside. -/
def walkClause (context : WalkContext) (clause : NodeId) (isFirst : Bool) : Binder Unit := do
  match a.form? clause with
  | some (.comprehensionFor _ target iterable) =>
    bind a context target (some clause) none
    walk context target
    if !isFirst then walk context iterable
  | some _ => walk context clause
  | none => return

/-- Walks a comprehension: what its first clause goes through outside of its scope, all else
inside. -/
def walkComprehension (context : WalkContext) (node : NodeId) (expression : NodeId)
    (clauses : List NodeId) : Binder Unit := do
  match clauses.head?.bind a.form? with
  | some (.comprehensionFor _ _ iterable) => walk context iterable
  | _ => pure ()
  let scope ← openScope .comprehension node (some context.scope)
  let inner := { context with scope }
  for (clause, i) in clauses.zipIdx do walkClause a walk inner clause (i == 0)
  walk inner expression

/-- The name node that an import binds: its alias, else its own name or the first part of it. -/
def importedName (source : NodeId) (newName : Option NodeId) : Option NodeId :=
  match newName with
  | some name => some name
  | none =>
    match a.form? source with
    | some (.moduleName _ parts _) => parts.head?
    | _ => none

/-- Adds names to those that are already there. -/
def addNames (names more : List String) : List String :=
  more.foldl (fun names name => if names.contains name then names else names ++ [name]) names

/-- Notes what a node that opens no scope declares or adds to the function around it, and says
whether its children are to be walked. -/
def visitPlain (context : WalkContext) (node : NodeId) (form : Form) : Binder Bool := do
  match form with
  | .assignment left right =>
    bind a context left (some (assignedValue a a.size right)) none
    return true
  | .typeHint value hint =>
    -- Only as a statement of its own: a hinted assignment binds the value too.
    if (a.parent? node).bind a.kind? == some .statementList then
      bind a context value none (some hint)
    return true
  | .augmentedAssignment _ left _ =>
    bind a context left (some node) none
    return true
  | .assignmentExpression name right =>
    let b ← get
    let scope := beyondComprehensions b b.scopes.size context.scope
    bind a { context with scope } name (some right) none
    return true
  | .forLoop _ target .. | .withItem _ (some target) =>
    bind a context target (some node) none
    return true
  | .except _ (some name) _ =>
    declareNode a context.scope name { Declaration.plain .variable name with source := some node }
    return true
  | .importAs source newName =>
    for name in (importedName a source newName).toList do
      declareNode a context.scope name (Declaration.plain .imported node)
    return false
  | .importFromAs name newName =>
    declareNode a context.scope (newName.getD name) (Declaration.plain .imported node)
    return false
  | .global names =>
    modifyScope context.scope fun s =>
      { s with globals := addNames s.globals (names.filterMap a.nameOf?) }
    return false
  | .nonlocal names =>
    modifyScope context.scope fun s =>
      { s with nonlocals := addNames s.nonlocals (names.filterMap a.nameOf?) }
    return false
  | .returnValue _ =>
    for function in context.function.toList do
      modify fun b => { b with returns := b.returns ++ [(function.node, node)] }
    return true
  | .yield _ | .yieldFrom _ =>
    for function in context.function.toList do
      modify fun b => { b with yields := b.yields ++ [(function.node, node)] }
    return true
  | _ => return true

/-- Walks a node and all below it, given the walk of what is below. -/
def walkNode (context : WalkContext) (node : NodeId) : Binder Unit := do
  match a.form? node with
  | none => return
  | some form =>
    match form with
    | .classDef decorators name arguments suite =>
      walkClass a walk context node decorators name arguments suite
    | .function decorators _ name parameters returnHint suite =>
      walkFunction a walk context node decorators name parameters returnHint suite
    | .lambda parameters expression => walkLambda a walk context node parameters expression
    | .comprehension expression clauses =>
      walkComprehension a walk context node expression clauses
    | form =>
      if ← visitPlain a context node form then
        for child in form.children do walk context child

end Walk

/-- Walks a node and all below it, down to `fuel` levels. -/
def walk (a : Arena) : (fuel : Nat) → WalkContext → NodeId → Binder Unit
  | 0, _, _ => return
  | fuel + 1, context, node => walkNode a (walk a fuel) context node

end Binder

/-- Without scopes and declarations. -/
def Bindings.empty : Bindings := ⟨#[], [], [], [], []⟩

namespace Binder

/-- Forgets all that has been collected. -/
def reset : Binder Unit := set Bindings.empty

/-- Walks the module with the given root, after forgetting all that has been collected before. -/
def bindModule (a : Arena) (root : NodeId) : Binder Unit := do
  reset
  let scope ← openScope .module root none
  for child in a.children root do
    walk a (a.size + 1) ⟨scope, none⟩ child

end Binder

namespace Bindings

/-- The bindings of the module with the given root, collected where there are others already. -/
def rebind (b : Bindings) (a : Arena) (root : NodeId) : Bindings :=
  ((Binder.bindModule a root).run b).2

/-- The bindings of the module with the given root. -/
def ofTree (a : Arena) (root : NodeId) : Bindings := empty.rebind a root

end Bindings

end TypeProbe
