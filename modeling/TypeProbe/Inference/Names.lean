import TypeProbe.Inference.Operations

/-!
# Names and declarations

What a name stands for (`Names.lookup`): the declaration that comes last before it, if it is
declared in the scope where it is used, or else all its declarations together; a name that is
declared nowhere may be one that needs no import. The type of a declaration (`Names.declaration`)
comes from its type hint or from the expression or statement that gives it its value.
-/

namespace TypeProbe.Names

open Evaluation

/-- What the decorators of a definition make of it; nothing is known of what is no definition. -/
def decoratedType (types : Option DefinitionTypes) : TypeId :=
  match types with
  | some t => t.decorated
  | none => .unknown

/-- Whether the names of a module's own texts include the name. -/
def isModuleText (name : String) : Bool :=
  name == "__name__" || name == "__file__" || name == "__doc__"

/-- Whether a declaration replaces the ones before it wherever it is seen from. -/
def replacesOthers (d : Declaration) : Bool :=
  d.kind == .function || d.kind == .class || d.kind == .imported

section Rules

variable (p : Program)

/-- The type of a name that no scope declares. -/
def undeclared (name : String) : Evaluation TypeId := do
  match p.builtins.name? (← store) name with
  | some type => return type
  | none =>
    if isModuleText name then onStore (·.instanceOf p.builtins.text) else return .unknown

/-- The type of all declarations of a name together: that of the last one if it replaces the others,
or else the one that is given by a type hint, or else the union of all, without literal values. -/
def together (ds : List Declaration) : Evaluation TypeId := do
  match ds.getLast?.filter replacesOthers with
  | some last => ask (.declaration last)
  | none =>
    match ds.find? (·.hint.isSome) with
    | some declared => ask (.declaration declared)
    | none =>
      let types ← ds.mapM fun d => do onStore (TypeStore.widen (← ask (.declaration d)))
      onStore (Values.unionOrUnknown types)

/-- The type that declarations of one name give to its use at a node. -/
def ofDeclarations (ds : List Declaration) (usage : NodeId) (sameScope : Bool) :
    Evaluation TypeId := do
  let preceding := if sameScope then ds.filter (p.precedes (p.arena.startOf usage)) else []
  match p.latest? preceding with
  | some d => ask (.declaration d)
  | none => together ds

/-- The type of a name as it is used at a node. -/
def lookup (usage : NodeId) (name : String) : Evaluation TypeId := do
  let scope := p.bindings.scopeContaining p.arena usage
  match p.bindings.lookup? scope name with
  | some (found, ds) => ofDeclarations p ds usage (found == scope)
  | none => undeclared p name

/-- The type of a parameter, one of the given ones of a function with the given type. -/
def parameterOf (node : NodeId) (parameters : List NodeId) (type : TypeId) :
    Evaluation TypeId := do
  match parameters.findIdx? (· == node), (← store).functionOf? type with
  | some i, some f => return ((f.parameters[i]?).map (·.type)).getD .unknown
  | _, _ => return .unknown

/-- The type of a parameter, which its function knows. -/
def parameter (node : NodeId) : Evaluation TypeId := do
  match p.arena.parent? node with
  | none => return .unknown
  | some owner =>
    match p.arena.form? owner with
    | some (.function _ _ _ parameters _ _) =>
      match ← ask (.function owner) with
      | some types => parameterOf node parameters types.defined
      | none => return .unknown
    | some (.lambda parameters _) => parameterOf node parameters (← typeOf owner)
    | _ => return .unknown

/-- The type of what an import names. Only modules that are known beforehand have members. -/
def imported (node : NodeId) : Evaluation TypeId := do
  match p.arena.form? node with
  | some (.importAs module _) =>
    return (p.builtins.module? (p.importedModule module)).getD .unknown
  | some (.importFromAs name _) =>
    match (p.arena.parent? node).bind p.arena.form? with
    | some (.importFrom module _ _ _ _) =>
      let member := (p.arena.nameOf? name).getD ""
      let s ← store
      return ((p.builtins.module? (p.importedModule module)).bind fun type =>
        Builtins.memberOf? s type member).getD .unknown
    | _ => return .unknown
  | _ => return .unknown

/-- The type of an assignment that goes through an operator. Its target is read as a name, so that
it stands for what it was before. -/
def augmented (op : Operator) (left right : NodeId) : Evaluation TypeId := do
  let leftType ← match p.arena.nameOf? left with
    | some name => lookup p left name
    | none => typeOf left
  let rightType ← typeOf right
  match Values.assignedOperator? op with
  | some op => Operations.binary p op leftType rightType
  | none => return .unknown

/-- The type of the value that a declaration takes from an expression or statement. -/
def sourceType (source : NodeId) : Evaluation TypeId := do
  match p.arena.form? source with
  | none => return .unknown
  | some (.forLoop _ _ iterable _ _) | some (.comprehensionFor _ _ iterable) =>
    onStore (Values.iterated p.builtins (← typeOf iterable))
  | some (.withItem expression _) => callMemberD (← typeOf expression) "__enter__" []
  | some (.except (some typeExpression) _ _) =>
    onStore (Values.caught p.builtins (← typeOf typeExpression))
  | some (.except none _ _) => onStore (·.instanceOf p.builtins.baseException)
  | some (.augmentedAssignment op left right) => augmented p op left right
  | some _ => typeOf source

/-- The type of a variable that has no type hint: what its target unpacks from the value. -/
def variableType (d : Declaration) : Evaluation TypeId := do
  match d.source with
  | none => return .unknown
  | some source =>
    if (p.arena.get? source).isNone then return .unknown
    d.path.foldlM (fun type place => onStore (Values.unpacked p.builtins type place))
      (← sourceType p source)

/-- The type that a declaration gives to its name. -/
def declaration (d : Declaration) : Evaluation TypeId := do
  match d.kind with
  | .class => return decoratedType (← ask (.classDef d.node))
  | .function => return decoratedType (← ask (.function d.node))
  | _ =>
    match (← get).declarationTypes.lookup d.node with
    | some type => return type
    | none =>
      guarded declarationSlot d.node .incomplete
        (match d.kind, d.hint with
          | .parameter, _ => parameter p d.node
          | .imported, _ => imported p d.node
          | _, some hint => ask (.hint hint)
          | _, none => variableType p d)
        (fun type m => { m with declarationTypes := (d.node, type) :: m.declarationTypes })

end Rules

end TypeProbe.Names
