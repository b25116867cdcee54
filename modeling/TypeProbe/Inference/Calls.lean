import TypeProbe.Inference.Operations

/-!
# Calls, members and returned types

A call gives the value of a class, or what the called function returns: what it is said to return,
or else what its body returns, with the type variables of its parameters replaced by the types of
the arguments (`Calls.functionResult`). A member of a value is looked for in its class and bound to
the value (`Calls.member`, `Calls.bound`).
-/

namespace TypeProbe.Calls

open Evaluation

/-- How many parameters of a function its receiver fills. -/
def receiverCount (s : TypeStore) (detail : FunctionId) (receiver : Option TypeId) : Nat :=
  if receiver.isSome && !s.functionHas detail .staticMethod then 1 else 0

/-- Whether a parameter takes one argument and has a name. -/
def isPlain (parameter : Parameter) : Bool := parameter.category == .simple && parameter.name.isSome

/-- Whether so many positional arguments fit the parameters: there is one for every plain parameter
without a default, and a plain parameter for every one, or a parameter that takes all further
ones. -/
def acceptsCount (parameters : List Parameter) (count : Nat) : Bool :=
  let plain := parameters.filter isPlain
  let required := (plain.filter fun parameter => !parameter.hasDefault).length
  let unlimited := parameters.any fun parameter => parameter.category == .varArgList
  required ≤ count && (unlimited || count ≤ plain.length)

/-- Whether a function takes so many positional arguments. -/
def accepts (s : TypeStore) (count : Nat) (type : TypeId) : Bool :=
  match s.shape? type with
  | some (.function detail receiver _) =>
    match s.function? detail with
    | some f => acceptsCount (f.parameters.drop (receiverCount s detail receiver)) count
    | none => false
  | _ => false

/-- Solves the type variables of parameters from the types of the arguments, up to the first
parameter that takes more than one; the first argument for a type variable counts. -/
def solve : List Parameter → List TypeId → Solutions → StateM TypeStore Solutions
  | parameter :: parameters, argument :: arguments, solutions => do
    if parameter.category != .simple then return solutions
    match (← get).shape? parameter.type, solutions.lookup parameter.type with
    | some (.typeVar ..), none =>
      solve parameters arguments (solutions ++ [(parameter.type, ← TypeStore.widen argument)])
    | _, _ => solve parameters arguments solutions
  | _, _, solutions => return solutions

section Rules

variable (p : Program)

/-- The type that a function returns when it is called with positional arguments of the given types;
the first `skip` parameters are filled otherwise. -/
def functionResult (detail : FunctionId) (arguments : List TypeId) (skip : Nat) :
    Evaluation TypeId := do
  match (← store).function? detail with
  | none => return .unknown
  | some f =>
    let declared ← match f.declaredReturn with
      | some type => pure type
      | none => ask (.returned detail)
    let solutions ← onStore (solve (f.parameters.drop skip) arguments [])
    let type ← if solutions.isEmpty then pure declared
      else onStore (TypeStore.substitute solutions declared)
    if f.flags.has .async then
      onStore (·.specializedInstance p.builtins.coroutine [.any, .any, type])
    else return type

/-- The type of a call with positional arguments of the given types. -/
def call (callee : TypeId) (arguments : List TypeId) : Evaluation TypeId := do
  let s ← store
  match s.get? callee with
  | none => return .unknown
  | some t =>
    match t.shape with
    | .nominal detail typeArguments _ =>
      if t.isInstantiable then
        if s.classHas detail .specialBuiltIn then return .unknown
        match typeArguments with
        | some types => onStore (·.specializedInstance detail types)
        | none => onStore (·.instanceOf detail)
      else callMemberD callee "__call__" arguments
    | .function detail receiver _ =>
      functionResult p detail arguments (receiverCount s detail receiver)
    | .overloaded overloads =>
      match (overloads.find? (accepts s arguments.length)).or overloads.getLast? with
      | some chosen => ask (.call chosen arguments)
      | none => return .unknown
    | .union members =>
      let types ← members.mapM fun member => ask (.call member arguments)
      onStore (·.unionOf types)
    | .any => return .any
    | _ => return .unknown

/-- What a function of a class is bound to when it is taken from an object: functions of the class
to the class, others to a value. -/
def receiver? (f : FunctionDetail) (object : TypeId) (throughValue : Bool) :
    Evaluation (Option TypeId) := do
  if f.flags.has .classMethod then
    match (← store).instanceClass? object with
    | some owner => return some (← onStore (·.classType owner))
    | none => return some object
  else return if throughValue then some object else none

/-- The member of a class bound to the value it is taken from. A property that is read through a
value gives what its function returns; functions of a class are bound to the class. -/
def bound (member object : TypeId) (throughValue : Bool) : Evaluation TypeId := do
  let m ← get
  match m.getters.lookup member with
  | some getter => if throughValue then functionResult p getter [] 1 else return member
  | none =>
    match m.store.shape? member with
    | some (.function detail none _) =>
      match m.store.function? detail with
      | none => return member
      | some f =>
        if f.flags.has .staticMethod then return member
        match ← receiver? f object throughValue with
        | some receiver =>
          let openParameters := (f.parameters.drop 1).map (·.toOpen)
          onStore (·.addValue (.function detail (some receiver) (some openParameters)))
        | none => return member
    | _ => return member

/-- The member of a class as it is found through the class itself: its own, or one of the class's
own class. -/
def classMember (object : TypeId) (detail : ClassId) (name : String) :
    Evaluation (Option TypeId) := do
  let s ← store
  match s.member? detail name with
  | some member => return some (← bound p member object false)
  | none =>
    match ((s.class? detail).bind (·.effectiveMetaclass)).bind s.classIdOf? with
    | none => return none
    | some metaclass =>
      match s.member? metaclass name with
      | some member => return some (← bound p member object true)
      | none => return none

/-- The type of a member of a value, if there is one. -/
def member (object : TypeId) (name : String) : Evaluation (Option TypeId) := do
  let s ← store
  let ofObject : Evaluation (Option TypeId) := do
    ask (.member (← onStore (·.instanceOf p.builtins.object)) name)
  match s.get? object with
  | none => return none
  | some t =>
    match t.shape with
    | .module _ members => return members.get? name
    | .nominal detail _ _ =>
      if t.isInstantiable then classMember p object detail name
      else
        match s.member? detail name with
        | some found => return some (← bound p found object true)
        | none => return none
    | .typeVar detail _ _ =>
      match s.typeVar? detail with
      | none => return none
      | some v =>
        match v.bound with
        | some type => ask (.member type name)
        | none => ofObject
    | .noneValue => ofObject
    | .union members =>
      let found ← members.filterMapM fun part => ask (.member part name)
      if found.isEmpty then return none else return some (← onStore (·.unionOf found))
    | .unknown _ => return some .unknown
    | .any => return some .any
    | _ => return none

/-- The type of what a returning statement returns. -/
def returnedBy (statement : NodeId) : Evaluation TypeId := do
  match p.arena.form? statement with
  | some (.returnValue (some expression)) => typeOf expression
  | _ => return .noneValue

/-- The type of what a yielding expression yields. -/
def yieldedBy (expression : NodeId) : Evaluation TypeId := do
  match p.arena.form? expression with
  | some (.yield (some value)) => typeOf value
  | some (.yieldFrom value) => onStore (Values.iterated p.builtins (← typeOf value))
  | _ => return .noneValue

/-- The type that the body of a function returns: the union of what its returning statements return,
and nothing if its end can be reached. A function that yields returns what goes through its
values. -/
def bodyResult (node body : NodeId) : Evaluation TypeId := do
  let types ← (p.bindings.returnsOf node).mapM (returnedBy p)
  let returned := types ++ (if p.fallsThrough body then [.noneValue] else [])
  if p.bindings.isGenerator node then
    let yields ← (p.bindings.yieldsOf node).mapM (yieldedBy p)
    let yielded ← onStore (·.unionOf yields)
    let result ← if returned.isEmpty then pure .noneValue else onStore (·.unionOf returned)
    onStore (·.specializedInstance p.builtins.generator [yielded, .any, result])
  else onStore (·.unionOf returned)

/-- The type that a function definition returns by its body. -/
def definitionResult (node : NodeId) : Evaluation TypeId := do
  match p.arena.form? node with
  | some (.lambda _ expression) => typeOf expression
  | some (.function _ _ _ _ _ body) => bodyResult p node body
  | _ => return .unknown

/-- The type that a function without a given one returns. -/
def returned (detail : FunctionId) : Evaluation TypeId := do
  let m ← get
  match m.returnTypes.lookup detail with
  | some type => return type
  | none =>
    match (m.store.function? detail).bind (·.declaration) with
    | none => return .unknown
    | some node =>
      guarded returnSlot detail .incomplete (definitionResult p node)
        (fun type m => { m with returnTypes := (detail, type) :: m.returnTypes })

end Rules

end TypeProbe.Calls
