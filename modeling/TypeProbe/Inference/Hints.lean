import TypeProbe.Inference.Names
import TypeProbe.Text.Letter

/-!
# Type hints

A type hint is an expression that denotes a type: a class denotes its values, `None` itself, two
types with a bar between them their union, and a text the class or type it names. The special forms
are subscripted with the types they are about. A type variable is made anew for each definition that
uses it, so that the uses in one definition are the same type (`Hints.scopedTypeVar`).
-/

namespace TypeProbe.Hints

open Evaluation

/-- The name that a text in a type hint refers to: a single word. -/
def referredName? (literal : StringLiteral) : Option String :=
  let name := Letter.trim literal.value.toList
  if literal.flags.has .bytes || name.isEmpty || !name.all Letter.continuesWord then none
  else some (String.ofList name)

section Rules

variable (p : Program)

/-- Whether a class definition is generic in a type variable. -/
def isTypeParameter (classNode : NodeId) (detail : TypeVarId) : Evaluation Bool := do
  match ← ask (.classDef classNode) with
  | none => return false
  | some types =>
    let s ← store
    match s.classOf? types.defined with
    | some c => return c.typeParameters.any (s.isTypeVar detail)
    | none => return false

/-- The full name of the definition that the use of a type variable belongs to: the nearest one
around it, or the class of a method that is generic in the type variable. -/
def typeVarScope? (detail : TypeVarId) (context : NodeId) : Evaluation (Option String) := do
  match (p.arena.lineage context).tail.find? p.isDefinition with
  | none => return none
  | some owner =>
    match if p.isFunction owner then p.enclosingClass? owner else none with
    | some classNode =>
      if ← isTypeParameter classNode detail then return some (p.fullName classNode)
      else return some (p.fullName owner)
    | none => return some (p.fullName owner)

/-- The type variable as it is used at a node: the same for all uses in one definition. Outside of
all definitions it stays as it is. -/
def scopedTypeVar (type : TypeId) (context : NodeId) : Evaluation TypeId := do
  match (← store).shape? type with
  | some (.typeVar detail _ _) =>
    match ← typeVarScope? p detail context with
    | none => return type
    | some scope =>
      let m ← get
      match m.scopedTypeVars.lookup (detail, scope) with
      | some known => return known
      | none =>
        let name := ((m.store.typeVar? detail).map (·.name)).getD ""
        let shape := .typeVar detail (some scope) (some (name ++ "." ++ scope))
        let fresh ← onStore (·.addValue shape)
        modify fun m => { m with scopedTypeVars := ((detail, scope), fresh) :: m.scopedTypeVars }
        return fresh
  | _ => return type

/-- The type that a class denotes: its values; of the special forms only one denotes a type
alone. -/
def classValues (detail : ClassId) (arguments : Option (List TypeId)) : Evaluation TypeId := do
  match (← store).class? detail with
  | none => return .unknown
  | some c =>
    if c.flags.has .specialBuiltIn then
      return if c.fullName = "typing.Any" then .any else .unknown
    match arguments with
    | some types => onStore (·.specializedInstance detail types)
    | none => onStore (·.instanceOf detail)

/-- The type that the value of a type hint denotes. -/
def denoted (type : TypeId) (context : NodeId) : Evaluation TypeId := do
  match (← store).get? type with
  | none => return .unknown
  | some t =>
    match t.shape with
    | .nominal detail arguments _ =>
      if t.isInstantiable then classValues detail arguments else return .unknown
    | .typeVar _ none _ => scopedTypeVar p type context
    | .typeVar _ (some _) _ | .noneValue | .unknown _ | .any => return type
    | _ => return .unknown

/-- The type that a text in a type hint denotes, by the name of a type. -/
def forwardReference (node : NodeId) (strings : List NodeId) : Evaluation TypeId := do
  match strings.map p.arena.form? with
  | [some (.string _ literal)] =>
    match referredName? literal with
    | some name => denoted p (← Names.lookup p node name) node
    | none => return .unknown
  | _ => return .unknown

/-- The type of one value that a special form names. -/
def literalType (node : NodeId) : Evaluation TypeId := do
  let b := p.builtins
  match p.arena.form? node with
  | some (.number ⟨.int n, _, false⟩) => onStore (·.literal b.int (.int n))
  | some (.constant .true) => onStore (·.literal b.bool (.bool true))
  | some (.constant .false) => onStore (·.literal b.bool (.bool false))
  | some (.constant .none) => return .noneValue
  | some (.unaryOperation .subtract _ operand) =>
    match p.arena.form? operand with
    | some (.number ⟨.int n, _, false⟩) => onStore (·.literal b.int (.int (Values.turned n)))
    | _ => return .unknown
  | some (.stringList _) => typeOf node
  | _ => return .unknown

/-- The type that the first of some type hints denotes. -/
def firstHint (hints : List NodeId) : Evaluation TypeId := do
  match hints.head? with
  | some hint => ask (.hint hint)
  | none => return .unknown

/-- The class that the first of some type hints is about. -/
def hintedClass (hints : List NodeId) : Evaluation TypeId := do
  match hints.head? with
  | none => return .unknown
  | some hint =>
    let type ← ask (.hint hint)
    match (← store).classIdOf? type with
    | some detail => onStore (·.classType detail)
    | none => return .unknown

/-- The type that a subscripted class denotes: the special forms have rules of their own, any other
class takes the subscripts as type arguments. -/
def subscriptedClass (detail : ClassId) (hints : List NodeId) : Evaluation TypeId := do
  let s ← store
  match s.fullNameOf detail with
  | "typing.Optional" =>
    let type ← firstHint hints
    onStore (·.unionOf [type, .noneValue])
  | "typing.Union" =>
    let types ← hints.mapM fun hint => ask (.hint hint)
    onStore (·.unionOf types)
  | "typing.Literal" =>
    let types ← hints.mapM (literalType p)
    onStore (·.unionOf types)
  | "typing.Type" => hintedClass hints
  | "typing.ClassVar" | "typing.Final" => firstHint hints
  | _ =>
    if s.classHas detail .specialBuiltIn then return .unknown
    let arguments ← (hints.filter fun hint => p.arena.kind? hint != some .ellipsis).mapM fun hint =>
      ask (.hint hint)
    onStore (·.specializedInstance detail arguments)

/-- The type that a subscripted type hint denotes. -/
def subscripted (node base : NodeId) (items : List NodeId) : Evaluation TypeId := do
  let baseType ← typeOf base
  match (← store).get? baseType with
  | some t =>
    match t.class? with
    | some detail =>
      if t.isInstantiable then
        subscriptedClass p detail (items.filterMap p.argumentValue?)
      else return .unknown
    | none => denoted p baseType node
  | none => denoted p baseType node

/-- The type that a type hint denotes. -/
def hint (node : NodeId) : Evaluation TypeId := do
  match p.arena.form? node with
  | none => return .unknown
  | some (.constant .none) => return .noneValue
  | some (.stringList strings) => forwardReference p node strings
  | some (.binaryOperation .bitwiseOr _ left right _) =>
    let leftType ← ask (.hint left)
    let rightType ← ask (.hint right)
    onStore (·.unionOf [leftType, rightType])
  | some (.index base items) => subscripted p node base items
  | some _ => denoted p (← typeOf node) node

end Rules

end TypeProbe.Hints
