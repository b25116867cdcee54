import TypeProbe.Inference.Calls
import TypeProbe.Inference.Names

/-!
# Expressions

The type of a node that has a value (`Expressions.node`). Literals of whole numbers, texts and truth
values have literal types; displays of lists, sets and dictionaries forget literal values, tuples
keep the type of every item. Names that stand where something is declared have the type of what is
declared.
-/

namespace TypeProbe.Expressions

open Evaluation

section Rules

variable (p : Program)

/-- The type of texts in a row: bytes if one of them is, and a literal unless one is formatted. -/
def texts (strings : List NodeId) : Evaluation TypeId := do
  let b := p.builtins
  let isBytes := strings.any fun string =>
    match p.arena.form? string with
    | some (.string _ literal) => literal.flags.has .bytes
    | _ => false
  if isBytes then onStore (·.instanceOf b.bytes)
  else
    match p.plainText? strings with
    | some text => onStore (·.literal b.text (.text text))
    | none => onStore (·.instanceOf b.text)

/-- The type of an entry in the display of a list or a set, without literal values. -/
def entry (node : NodeId) : Evaluation TypeId := do
  let type ← match p.arena.form? node with
    | some (.unpack expression) => do
      onStore (Values.iterated p.builtins (← typeOf expression))
    | some (.comprehension expression _) => typeOf expression
    | _ => typeOf node
  onStore (TypeStore.widen type)

/-- The type of the display of a list or a set. -/
def display (detail : ClassId) (entries : List NodeId) : Evaluation TypeId := do
  let types ← entries.mapM (entry p)
  let item ← onStore (Values.unionOrUnknown types)
  onStore (·.specializedInstance detail [item])

/-- The types of the key and the value that an entry adds to the display of a dictionary, if it adds
any. -/
def dictionaryEntry (node : NodeId) : Evaluation (Option (TypeId × TypeId)) := do
  let inner := match p.arena.form? node with
    | some (.comprehension expression _) => expression
    | _ => node
  match p.arena.form? inner with
  | some (.dictionaryKeyEntry key value) =>
    let keyType ← typeOf key
    let valueType ← typeOf value
    let keyType ← onStore (TypeStore.widen keyType)
    let valueType ← onStore (TypeStore.widen valueType)
    return some (keyType, valueType)
  | some (.dictionaryExpandEntry expression) =>
    let expanded ← typeOf expression
    match (← store).argumentsOf? expanded with
    | some [keyType, valueType] => return some (keyType, valueType)
    | _ => return none
  | _ => return none

/-- The type of the display of a dictionary. -/
def dictionary (entries : List NodeId) : Evaluation TypeId := do
  let pairs ← entries.filterMapM (dictionaryEntry p)
  let key ← onStore (Values.unionOrUnknown (pairs.map (·.1)))
  let value ← onStore (Values.unionOrUnknown (pairs.map (·.2)))
  onStore (·.specializedInstance p.builtins.dictionary [key, value])

/-- The parameter of a function without a name, of whose type nothing is known. -/
def lambdaParameter? (node : NodeId) : Option Parameter :=
  match p.arena.form? node with
  | some (.parameter category name _ defaultValue) =>
    some ⟨category, name.bind p.arena.nameOf?, false, .unknown, defaultValue.isSome⟩
  | _ => none

/-- The type of a function without a name. -/
def lambda (node : NodeId) (parameters : List NodeId) : Evaluation TypeId := do
  let detail ← onStore (·.addFunction {
    name := "lambda"
    fullName := p.qualifiedName node "lambda"
    moduleName := p.moduleName
    flags := Flags.empty
    parameters := parameters.filterMap (lambdaParameter? p)
    declaredReturn := none
    declaration := some node })
  onStore (·.addValue (.function detail none none))

/-- The type of an argument that is passed by its place. -/
def positional (node : NodeId) : Evaluation (Option TypeId) := do
  match p.arena.form? node with
  | some (.argument category keyword value) =>
    let type ← typeOf value
    return if keyword.isNone && category == .simple then some type else none
  | _ => return none

/-- Whether a node is the constant for truth. -/
def isTrue (node : NodeId) : Bool := p.arena.form? node == some (.constant .true)

/-- Takes one argument into account when a type variable is made. -/
def typeVarArgument (v : TypeVarDetail) (place : Nat) (node : NodeId) :
    Evaluation TypeVarDetail := do
  match p.arena.form? node with
  | some (.argument _ keyword value) =>
    match p.argumentKeyword? keyword with
    | none =>
      if place = 0 then
        let type ← typeOf value
        match (← store).instance? type with
        | some (_, some (.text name)) => return { v with name }
        | _ => return v
      else
        return { v with constraints := v.constraints ++ [← ask (.hint value)] }
    | some "bound" => return { v with bound := some (← ask (.hint value)) }
    | some "covariant" => return if isTrue p value then { v with variance := .covariant } else v
    | some "contravariant" =>
      return if isTrue p value then { v with variance := .contravariant } else v
    | some _ => return v
  | _ => return v

/-- A new type variable, from the arguments of the call that makes it. -/
def newTypeVar (arguments : List NodeId) : Evaluation TypeId := do
  let unnamed : TypeVarDetail := ⟨"", [], none, .invariant⟩
  let v ← arguments.zipIdx.foldlM
    (fun v (argument, place) => typeVarArgument p v place argument) unnamed
  let detail ← onStore (·.addTypeVar v)
  onStore (·.add ⟨TypeStore.classFlags, .typeVar detail none none⟩)

/-- The type of a call. Calls that make a type variable and calls that for the class of a value
have rules of their own. -/
def call (callee : NodeId) (arguments : List NodeId) : Evaluation TypeId := do
  let b := p.builtins
  let calleeType ← typeOf callee
  let types ← arguments.filterMapM (positional p)
  let s ← store
  if s.isClassObject calleeType b.typeVar then newTypeVar p arguments
  else if s.isClassObject calleeType b.metaclass && arguments.length == 1 then
    match types.head?.bind s.instanceClass? with
    | some detail => onStore (·.classType detail)
    | none => return .unknown
  else ask (.call calleeType types)

/-- The type of a member that is taken from a value. -/
def memberAccess (left member : NodeId) : Evaluation TypeId := do
  let object ← typeOf left
  match p.arena.nameOf? member with
  | some name =>
    let found ← ask (.member object name)
    return found.getD .unknown
  | none => return .unknown

/-- The class that a type of values denotes, as a value. -/
def asClass (type : TypeId) : Evaluation TypeId := do
  match (← store).get? type with
  | some t =>
    if t.isInstance && t.class?.isSome then onStore (·.add ⟨TypeStore.classFlags, t.shape⟩)
    else return type
  | none => return type

/-- The type of a class that is subscripted as a value. -/
def subscriptedClass (node : NodeId) (detail : ClassId) (items : List NodeId) :
    Evaluation TypeId := do
  if (← store).classHas detail .specialBuiltIn && detail != p.builtins.generic then
    asClass (← ask (.hint node))
  else
    let arguments ← (items.filterMap p.argumentValue?).mapM fun value => ask (.hint value)
    onStore (·.specializedClass detail arguments)

/-- The type of what stands in the brackets of a subscript: a tuple unless it is one value. -/
def subscriptType (items : List NodeId) : Evaluation TypeId := do
  match items.map p.argumentValue? with
  | [some value] => typeOf value
  | values =>
    let types ← (values.filterMap id).mapM (typeOf)
    onStore (·.specializedInstance p.builtins.tuple types)

/-- The place in a tuple of the given size that a literal number picks; negative ones count from the
end. -/
def pickedPlace? (size : Nat) (n : Int) : Option Nat :=
  let place := if n < 0 then (size : Int) + n else n
  if 0 ≤ place then some place.toNat else none

/-- The type of an item that a subscript picks from a value. -/
def picked (container subscript : TypeId) : Evaluation TypeId := do
  let b := p.builtins
  let s ← store
  match s.instanceClass? container with
  | none => return .unknown
  | some detail =>
    let isSlice := s.instanceClass? subscript == some b.slice
    let arguments := (s.argumentsOf? container).getD []
    if detail = b.text then onStore (·.instanceOf b.text)
    else if detail = b.list then
      return if isSlice then container else arguments.headD .unknown
    else if detail = b.dictionary then return (arguments[1]?).getD .unknown
    else if detail = b.tuple then
      if isSlice then onStore (·.instanceOf b.tuple)
      else
        let place := match s.instance? subscript with
          | some (_, some (.int n)) => pickedPlace? arguments.length n
          | _ => none
        match place.bind (arguments[·]?) with
        | some type => return type
        | none => onStore (Values.unionOrUnknown arguments)
    else callMemberD container "__getitem__" [subscript]

/-- The type of a subscript. -/
def index (node base : NodeId) (items : List NodeId) : Evaluation TypeId := do
  let baseType ← typeOf base
  match (← store).get? baseType with
  | none => return .unknown
  | some t =>
    match if t.isInstantiable then t.class? else none with
    | some detail => subscriptedClass p node detail items
    | none => picked p baseType (← subscriptType p items)

/-- The type that the declaration of a node gives, if it makes one. -/
def declared (node : NodeId) : Evaluation (Option TypeId) := do
  match p.bindings.declaration? node with
  | some d => return some (← ask (.declaration d))
  | none => return none

/-- The type of a name that is no part of the construct around it: declared there, or used. -/
def plainName (node : NodeId) (value : String) : Evaluation (Option TypeId) := do
  match ← declared p node with
  | some type => return some type
  | none => return some (← Names.lookup p node value)

/-- The type of a name. Names that are part of the construct around them stand for what that
declares, imports or takes. -/
def name (node : NodeId) (value : String) : Evaluation (Option TypeId) := do
  match p.arena.parent? node with
  | none => plainName p node value
  | some parent =>
    match p.arena.form? parent with
    | some (.function _ _ definedName _ _ _) =>
      if definedName = node then return (← ask (.function parent)).map (·.decorated)
      else plainName p node value
    | some (.classDef _ definedName _ _) =>
      if definedName = node then return (← ask (.classDef parent)).map (·.decorated)
      else plainName p node value
    | some (.parameter _ parameterName _ _) =>
      if parameterName = some node then return some (← Names.parameter p parent)
      else plainName p node value
    | some (.memberAccess _ memberName) =>
      if memberName = node then ask (.node parent) else plainName p node value
    | some (.argument _ keyword _) =>
      if keyword = some node then return none else plainName p node value
    | some (.moduleName ..) =>
      match p.arena.parent? parent with
      | some around =>
        if p.arena.kind? around = some .importAs then declared p around else return none
      | none => return none
    | some (.importAs ..) | some (.importFromAs ..) => declared p parent
    | _ => plainName p node value

/-- The type of a node, if it is one that has a value. -/
def compute (node : NodeId) : Evaluation (Option TypeId) := do
  let b := p.builtins
  let whole (type : Evaluation TypeId) : Evaluation (Option TypeId) := some <$> type
  match p.arena.form? node with
  | none => return none
  | some (.name _ value) => name p node value
  | some (.number n) => whole (onStore (Values.number b n))
  | some (.constant keyword) => whole (onStore (Values.constant b keyword))
  | some .ellipsis => whole (onStore (·.instanceOf b.ellipsis))
  | some (.stringList strings) => whole (texts p strings)
  | some (.string ..) | some (.formatString ..) => whole (texts p [node])
  | some (.tuple items _) => whole do
    let types ← items.mapM (typeOf)
    onStore (·.specializedInstance b.tuple types)
  | some (.list entries) => whole (display p b.list entries)
  | some (.set entries) => whole (display p b.set entries)
  | some (.dictionary entries) => whole (dictionary p entries)
  | some (.comprehension expression _) => whole do
    let item ← onStore (TypeStore.widen (← typeOf expression))
    onStore (·.specializedInstance b.generator [item, .noneValue, .noneValue])
  | some (.unaryOperation op _ expression) => whole do
    Operations.unary p op (← typeOf expression)
  | some (.binaryOperation op _ left right _) => whole do
    let leftType ← typeOf left
    let rightType ← typeOf right
    Operations.binary p op leftType rightType
  | some (.ternary ifExpression test elseExpression) => whole do
    let _ ← typeOf test
    let ifType ← typeOf ifExpression
    let elseType ← typeOf elseExpression
    onStore (·.unionOf [ifType, elseType])
  | some (.assignmentExpression _ right) => whole (typeOf right)
  | some (.typeHint _ hint) => whole (ask (.hint hint))
  | some (.await expression) => whole do
    let type ← typeOf expression
    return Values.awaited b (← store) type
  | some (.unpack expression) => whole do
    onStore (Values.iterated b (← typeOf expression))
  | some (.yield _) | some (.yieldFrom _) => return some .unknown
  | some (.call callee arguments) => whole (call p callee arguments)
  | some (.memberAccess left member) => whole (memberAccess p left member)
  | some (.index base items) => whole (index p node base items)
  | some (.slice ..) => whole (onStore (·.instanceOf b.slice))
  | some (.lambda parameters _) => whole (lambda p node parameters)
  | some (.error _ child) => whole do
    if let some child := child then
      let _ ← ask (.node child)
    return .unknown
  | some _ => return none

/-- The type of a node, which is worked out once. -/
def node (node : NodeId) : Evaluation (Option TypeId) := do
  match (← get).nodeTypes.lookup node with
  | some type => return some type
  | none =>
    guarded nodeSlot node (some .incomplete) (compute p node) fun type? m =>
      match type? with
      | some type => { m with nodeTypes := (node, type) :: m.nodeTypes }
      | none => m

end Rules

end TypeProbe.Expressions
