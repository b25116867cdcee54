import TypeProbe.Named
import TypeProbe.Tree.Lookup

/-!
# Scopes and declarations

A module, a class, a function, a function without a name and a comprehension each open a scope. A
scope holds, for every name, the places where the name receives a value (`Declaration`). `Bindings`
is what is known of the names of one module: its scopes and declarations, what its functions return
and yield, and the members that methods give to their objects.
-/

namespace TypeProbe

/-- The number of a scope; scope 0 is the module. -/
abbrev ScopeId := Nat

/-- What opened a scope. -/
inductive ScopeKind where
  | module | «class» | function | lambda | comprehension
deriving DecidableEq, Inhabited, Repr

instance : Labelled ScopeKind where
  members := [.module, .class, .function, .lambda, .comprehension]
  label
    | .module => "Module" | .class => "Class" | .function => "Function" | .lambda => "Lambda"
    | .comprehension => "Comprehension"

/-- How a name receives its value. -/
inductive DeclarationKind where
  | variable | parameter | function | «class» | imported
deriving DecidableEq, Inhabited, Repr

instance : Labelled DeclarationKind where
  members := [.variable, .parameter, .function, .class, .imported]
  label
    | .variable => "Variable" | .parameter => "Parameter" | .function => "Function"
    | .class => "Class" | .imported => "Alias"

/-- A place where a name receives a value. -/
structure Declaration where
  /-- How it receives it. -/
  kind : DeclarationKind
  /-- The node that declares it: a target, a parameter, a definition, an import. -/
  node : NodeId
  /-- The expression or statement from which the value comes. -/
  source : Option NodeId
  /-- The type hint given with it. -/
  hint : Option NodeId
  /-- The way to the target through nested unpacked targets, each step by its place. -/
  path : List Nat
deriving DecidableEq, Inhabited, Repr

/-- The declaration by a node alone. -/
def Declaration.plain (kind : DeclarationKind) (node : NodeId) : Declaration :=
  ⟨kind, node, none, none, []⟩

/-- The names of one scope. -/
structure Scope where
  /-- What opened it. -/
  kind : ScopeKind
  /-- The node that opened it. -/
  node : NodeId
  /-- The scope around it; the module has none. -/
  parent : Option ScopeId
  /-- The declarations of every name, in the order of the text. -/
  symbols : Named (List Declaration)
  /-- The names that stand for those of the module. -/
  globals : List String
  /-- The names that stand for those of a function around. -/
  nonlocals : List String
deriving DecidableEq, Inhabited, Repr

/-- What is known of the names of a module. -/
structure Bindings where
  /-- The scopes; the id of a scope is its index. -/
  scopes : Array Scope
  /-- Every declaration, with its node, the last one first. -/
  declarations : List (NodeId × Declaration)
  /-- Every returning statement after the function it belongs to, in the order of the text. -/
  returns : List (NodeId × NodeId)
  /-- Every yielding expression after the function it belongs to, in the order of the text. -/
  yields : List (NodeId × NodeId)
  /-- The members that methods give to their objects, by class, in the order of the text. -/
  members : List (NodeId × String × Declaration)
deriving DecidableEq, Inhabited

namespace Bindings

/-- The scope of the module. -/
def moduleScope : ScopeId := 0

/-- The scope with the given id. -/
def scope? (b : Bindings) (id : ScopeId) : Option Scope := b.scopes[id]?

/-- The scope that a node opened. -/
def scopeOf? (b : Bindings) (node : NodeId) : Option ScopeId :=
  b.scopes.findIdx? fun scope => scope.node == node

/-- The declaration that a node makes. -/
def declaration? (b : Bindings) (node : NodeId) : Option Declaration := b.declarations.lookup node

/-- What belongs to a node in a list of pairs. -/
def belonging {α : Type} (pairs : List (NodeId × α)) (owner : NodeId) : List α :=
  (pairs.filter (·.1 == owner)).map (·.2)

/-- The returning statements of a function, in the order of the text. -/
def returnsOf (b : Bindings) (function : NodeId) : List NodeId := belonging b.returns function

/-- The yielding expressions of a function, in the order in which they are walked. -/
def yieldsOf (b : Bindings) (function : NodeId) : List NodeId := belonging b.yields function

/-- Whether a function yields. -/
def isGenerator (b : Bindings) (function : NodeId) : Bool := !(b.yieldsOf function).isEmpty

/-- The declarations of every member that the methods of a class give to their objects. -/
def membersOf (b : Bindings) (classNode : NodeId) : Named (List Declaration) :=
  (belonging b.members classNode).foldl
    (fun named (name, declaration) => named.alter name [] (· ++ [declaration])) []

/-- Whether `node` is the name of a parameter, which `part` is, of the given parameters. -/
def isParameterName (a : Arena) (parameters : List NodeId) (part node : NodeId) : Bool :=
  parameters.contains part &&
    match a.form? part with
    | some (.parameter _ (some name) _ _) => name == node
    | _ => false

/-- Whether a node is the first clause of the comprehension around it. -/
def isFirstClause (a : Arena) (clause : NodeId) : Bool :=
  match (a.parent? clause).bind a.form? with
  | some (.comprehension _ clauses) => clauses.head? == some clause
  | _ => false

/-- Goes from a node outwards to the first node whose scope holds the names of `node`. `part` is the
node before `current` on the way, and `outside` tells that it is what the first clause of a
comprehension goes through, which belongs to the scope around the comprehension. -/
def scopeFrom (b : Bindings) (a : Arena) (node : NodeId) :
    (fuel : Nat) → (part : NodeId) → (outside : Bool) → (current : Option NodeId) → ScopeId
  | 0, _, _, _ => moduleScope
  | _, _, _, none => moduleScope
  | fuel + 1, part, outside, some current =>
    match a.get? current with
    | none => moduleScope
    | some around =>
      let (owns, outside) : Bool × Bool := match around.form with
        | .function _ _ _ parameters _ body =>
          (body == part || isParameterName a parameters part node, outside)
        | .lambda parameters expression =>
          (expression == part || isParameterName a parameters part node, outside)
        | .classDef _ _ _ body => (body == part, outside)
        | .comprehensionFor _ _ iterable =>
          (false, outside || (iterable == part && isFirstClause a current))
        | .comprehension _ _ => (!outside, false)
        | .module _ => (true, outside)
        | _ => (false, outside)
      match if owns then b.scopeOf? current else none with
      | some scope => scope
      | none => b.scopeFrom a node fuel current outside around.parent

/-- The scope in which the names of a node are looked up. What a definition evaluates before its
body exists, as decorators, defaults, type hints and base classes, belongs to the scope around
it. -/
def scopeContaining (b : Bindings) (a : Arena) (node : NodeId) : ScopeId :=
  b.scopeFrom a node (a.size + 1) node false (a.parent? node)

/-- Goes from a scope outwards to the first one that has the name. The names of a class are seen
only where the search starts. -/
def lookupFrom (b : Bindings) (start : ScopeId) (name : String) :
    (fuel : Nat) → (current : Option ScopeId) → Option (ScopeId × List Declaration)
  | 0, _ => none
  | _, none => none
  | fuel + 1, some id =>
    match b.scope? id with
    | none => none
    | some scope =>
      let visible := id == start || scope.kind != .class
      match if visible then scope.symbols.get? name else none with
      | some declarations => some (id, declarations)
      | none => b.lookupFrom start name fuel scope.parent

/-- The scope and declarations of a name seen from a scope. Where the name is said to be global only
the module counts. -/
def lookup? (b : Bindings) (scope : ScopeId) (name : String) :
    Option (ScopeId × List Declaration) :=
  match b.scope? scope with
  | none => none
  | some start =>
    if start.globals.contains name then
      ((b.scope? moduleScope).bind fun module => module.symbols.get? name).map
        fun declarations => (moduleScope, declarations)
    else b.lookupFrom scope name (b.scopes.size + 1) (some scope)

end Bindings

end TypeProbe
