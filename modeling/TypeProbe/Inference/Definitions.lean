import TypeProbe.Inference.Calls
import TypeProbe.Inference.Names
import TypeProbe.Types.Linearization

/-!
# Class and function definitions

The types of a definition (`Definitions.classDef`, `Definitions.function`) are kept before its parts
are worked out, so that a method that mentions its class, or a function that calls itself, finds the
type that is being made. Decorators are applied from the innermost outwards: some only mark the
definition, a few are known, and any other one is called. A function that follows an overload of the
same name is joined with it.
-/

namespace TypeProbe.Definitions

open Evaluation

/-- What the arguments of a class definition amount to. -/
structure Heritage where
  /-- The bases, in order. -/
  bases : List TypeId
  /-- The class of the class, if it is given. -/
  metaclass : Option TypeId
  /-- The type variables that the class is said to be generic in. -/
  generic : Option (List TypeId)
  /-- The type variables among the type arguments of the bases, each once. -/
  typeVars : List TypeId

/-- Type variables with a further type, if it is a type variable that is not among them. -/
def addTypeVar (s : TypeStore) (typeVars : List TypeId) (type : TypeId) : List TypeId :=
  match s.shape? type with
  | some (.typeVar detail _ _) =>
    if typeVars.any (s.isTypeVar detail) then typeVars else typeVars ++ [type]
  | _ => typeVars

/-- The properties that a marker gives to a class. -/
def classMark? : Option Marker → Option ClassFlag
  | some .final => some .final
  | some .runtimeCheckable => some .runtimeCheckable
  | _ => none

/-- The properties that a marker gives to a function. -/
def functionMark? : Option Marker → Option FunctionFlag
  | some .overload => some .overloaded
  | some .final => some .final
  | some .abstractMethod => some .abstractMethod
  | _ => none

/-- The properties that a method has by its name. -/
def methodMark? (name : String) : Option FunctionFlag :=
  if name = "__new__" then some .constructorMethod
  else if name = "__init_subclass__" ∨ name = "__class_getitem__" then some .classMethod
  else none

/-- Whether a type is a function that is one of several overloads. -/
def isOverload (s : TypeStore) (type : TypeId) : Bool :=
  match s.functionOf? type with
  | some f => f.flags.has .overloaded
  | none => false

section Rules

variable (p : Program)

/-- Keeps the types of a class definition. -/
def keepClass (node : NodeId) (types : DefinitionTypes) : Evaluation Unit :=
  modify fun m => { m with classes := (node, types) :: m.classes }

/-- Keeps the types of a function definition. -/
def keepFunction (node : NodeId) (types : DefinitionTypes) : Evaluation Unit :=
  modify fun m => { m with functions := (node, types) :: m.functions }

/-- What a decorator that is called makes of a definition; nothing changes if nothing is known of
its result. -/
def applied (decorator decorated : TypeId) : Evaluation TypeId := do
  let result ← ask (.call decorator [decorated])
  return if (← store).isUnknown result then decorated else result

/-- Adds a base to what is known of the arguments of a class definition. -/
def addBase (h : Heritage) (type : TypeId) : Evaluation Heritage := do
  let s ← store
  let h := { h with bases := h.bases ++ [type] }
  match s.argumentsOf? type with
  | some arguments =>
    if s.isClassObject type p.builtins.generic then return { h with generic := some arguments }
    else return { h with typeVars := arguments.foldl (addTypeVar s) h.typeVars }
  | none => return h

/-- Takes one argument of a class definition into account. -/
def heritageArgument (h : Heritage) (node : NodeId) : Evaluation Heritage := do
  match p.arena.form? node with
  | some (.argument _ keyword value) =>
    let type ← typeOf value
    match p.argumentKeyword? keyword with
    | some "metaclass" => return { h with metaclass := some type }
    | some _ => return h
    | none => addBase p h type
  | _ => return h

/-- What the arguments of a class definition amount to; a class without bases has the root of all
classes. -/
def heritage (arguments : List NodeId) : Evaluation Heritage := do
  let h ← arguments.foldlM (heritageArgument p) ⟨[], none, none, []⟩
  if h.bases.isEmpty then return { h with bases := [← onStore (·.classType p.builtins.object)] }
  else return h

/-- The class of a class: the one that is given, or else the first one that a base has. -/
def metaclassOf (h : Heritage) : Evaluation TypeId := do
  let s ← store
  let inherited := h.bases.findSome? fun base => (s.classOf? base).bind (·.effectiveMetaclass)
  match h.metaclass.or inherited with
  | some type => return type
  | none => onStore (·.classType p.builtins.metaclass)

/-- Whether a base hands down that its methods may be abstract. -/
def inheritsAbstract (s : TypeStore) (bases : List TypeId) : Bool :=
  (bases.filterMap s.classOf?).any fun c => c.flags.has .supportsAbstractMethods

/-- Completes a class with what its arguments and its body's first text say. -/
def completeHeritage (detail : ClassId) (classType : TypeId) (h : Heritage) (body : NodeId) :
    Evaluation Unit := do
  let mro := (← store).linearize classType h.bases
  let metaclass ← metaclassOf p h
  let isAbstract := inheritsAbstract (← store) h.bases
  let doc := p.docText? body
  edit (·.modifyClass detail fun c => { c with
    flags := if isAbstract then c.flags.insert .supportsAbstractMethods else c.flags
    bases := h.bases
    mro
    declaredMetaclass := h.metaclass
    effectiveMetaclass := some metaclass
    typeParameters := h.generic.getD h.typeVars
    doc })

/-- Adds a member to a class. -/
def completeField (node : NodeId) (detail : ClassId) (field : String × List Declaration) :
    Evaluation Unit := do
  let type ← Names.ofDeclarations p field.2 node false
  edit (·.modifyClass detail fun c => { c with fields := c.fields.insert field.1 type })

/-- Adds a member that methods give to their objects, unless the class has one of that name. -/
def completeMember (node : NodeId) (detail : ClassId) (field : String × List Declaration) :
    Evaluation Unit := do
  match (← store).class? detail with
  | some c =>
    if (c.fields.get? field.1).isSome then return ()
    completeField p node detail field
  | none => completeField p node detail field

/-- Adds the members of a class: the names of its body, then what its methods give to their
objects. -/
def completeFields (node : NodeId) (detail : ClassId) : Evaluation Unit := do
  let symbols := match (p.bindings.scopeOf? node).bind p.bindings.scope? with
    | some scope => scope.symbols
    | none => []
  symbols.forM (completeField p node detail)
  (p.bindings.membersOf node).forM (completeMember p node detail)
  edit (·.modifyClass detail fun c => { c with flags := c.flags.erase .partiallyEvaluated })

/-- Applies a decorator to a class. -/
def decorateClass (detail : ClassId) (decorated : TypeId) (expression : NodeId) :
    Evaluation TypeId := do
  let type ← typeOf expression
  match classMark? (p.builtins.marker? type) with
  | some flag =>
    edit (·.modifyClass detail fun c => { c with flags := c.flags.insert flag })
    return decorated
  | none => applied type decorated

/-- Works out a class definition. -/
def newClass (node : NodeId) (decorators : List NodeId) (arguments : List NodeId) (body : NodeId) :
    Evaluation DefinitionTypes := do
  let name := p.definitionName node
  let detail ← onStore (·.addClass
    { ClassDetail.named name p.moduleName (Flags.only .partiallyEvaluated) with
      fullName := p.qualifiedName node name
      declaration := some node })
  let classType ← onStore (·.classType detail)
  keepClass node ⟨classType, classType⟩
  let h ← heritage p arguments
  completeHeritage p detail classType h body
  completeFields p node detail
  let decorated ← (decorators.filterMap p.decoratorExpression?).reverse.foldlM
    (decorateClass p detail) classType
  keepClass node ⟨classType, decorated⟩
  return ⟨classType, decorated⟩

/-- The types of a class definition, if the node is one. -/
def classDef (node : NodeId) : Evaluation (Option DefinitionTypes) := do
  match (← get).classes.lookup node with
  | some types => return some types
  | none =>
    match p.arena.form? node with
    | some (.classDef decorators _ arguments body) =>
      return some (← newClass p node decorators arguments body)
    | _ => return none

/-- The class whose body a function definition is in. -/
def ownerOf (node : NodeId) : Evaluation (Option ClassId) := do
  match p.enclosingClass? node with
  | none => return none
  | some classNode =>
    match ← ask (.classDef classNode) with
    | some types => return (← store).classIdOf? types.defined
    | none => return none

/-- Adds the properties that a decorator gives to a function. -/
def markFunction (flags : Flags FunctionFlag) (expression : NodeId) :
    Evaluation (Flags FunctionFlag) := do
  let b := p.builtins
  let type ← typeOf expression
  let s ← store
  let flags := if s.isClassObject type b.staticMethod then flags.insert .staticMethod
    else if s.isClassObject type b.classMethod then flags.insert .classMethod
    else flags
  return match functionMark? (b.marker? type) with
    | some flag => flags.insert flag
    | none => flags

/-- The properties of a function: by its decorators, by how it is written, and by its name. -/
def functionFlags (node : NodeId) (name : String) (decorators : List NodeId) (isAsync : Bool)
    (owner : Option ClassId) : Evaluation (Flags FunctionFlag) := do
  let flags ← (decorators.filterMap p.decoratorExpression?).foldlM (markFunction p) Flags.empty
  let flags := if isAsync then flags.insert .async else flags
  let flags := if p.bindings.isGenerator node then flags.insert .generator else flags
  return match if owner.isSome then methodMark? name else none with
    | some flag => flags.insert flag
    | none => flags

/-- The type of a method's first parameter without a type hint: the class, or a value of it. -/
def receiverType (flags : Flags FunctionFlag) (owner : ClassId) : Evaluation TypeId :=
  if flags.has .classMethod || flags.has .constructorMethod then onStore (·.classType owner)
  else onStore (·.instanceOf owner)

/-- A parameter of a function definition, and whether it lacks a type that would have to be given.
The first parameter of a method is its receiver. -/
def parameter (flags : Flags FunctionFlag) (owner : Option ClassId) (place : Nat) (node : NodeId) :
    Evaluation (Option (Parameter × Bool)) := do
  match p.arena.form? node with
  | some (.parameter category name hint defaultValue) =>
    if let some value := defaultValue then
      let _ ← typeOf value
    let result (hasDeclaredType : Bool) (type : TypeId) : Parameter :=
      ⟨category, name.bind p.arena.nameOf?, hasDeclaredType, type, defaultValue.isSome⟩
    match hint, if place = 0 then owner else none with
    | some hint, _ => return some (result true (← ask (.hint hint)), false)
    | none, some owner => return some (result false (← receiverType flags owner), false)
    | none, none => return some (result false .unknown, name.isSome)
  | _ => return none

/-- Completes a function with its parameters and the type it is said to return. -/
def completeSignature (detail : FunctionId) (flags : Flags FunctionFlag) (owner : Option ClassId)
    (parameters : List NodeId) (returnHint : Option NodeId) : Evaluation Unit := do
  let receiver := if flags.has .staticMethod then none else owner
  let found ← parameters.zipIdx.filterMapM fun (node, place) =>
    parameter p flags receiver place node
  let declaredReturn ← match returnHint with
    | some hint => do pure (some (← ask (.hint hint)))
    | none => pure none
  edit (·.modifyFunction detail fun f => { f with
    parameters := found.map (·.1)
    declaredReturn
    flags := if found.any (·.2) then f.flags.insert .unannotatedParams else f.flags })

/-- The property that a decorator such as `name.setter` belongs to. -/
def accessorOwner? (expression : NodeId) : Evaluation (Option TypeId) := do
  match p.arena.form? expression with
  | some (.memberAccess left member) =>
    match p.arena.nameOf? member with
    | some "setter" | some "deleter" | some "getter" =>
      let owner ← typeOf left
      return if ((← get).getters.lookup owner).isSome then some owner else none
    | _ => return none
  | _ => return none

/-- Makes a property that calls the function when it is read. -/
def newProperty (detail : FunctionId) : Evaluation TypeId := do
  let property ← onStore (·.addValue (.nominal p.builtins.property none none))
  modify fun m => { m with getters := (property, detail) :: m.getters }
  return property

/-- Applies a decorator to a function. -/
def decorateFunction (detail : FunctionId) (decorated : TypeId) (expression : NodeId) :
    Evaluation TypeId := do
  let b := p.builtins
  let type ← typeOf expression
  if (← store).isClassObject type b.property then newProperty p detail
  else
    match ← accessorOwner? p expression with
    | some property => return property
    | none =>
      let s ← store
      if s.isClassObject type b.staticMethod || s.isClassObject type b.classMethod ||
          (b.marker? type).isSome then return decorated
      else applied type decorated

/-- The declaration of the same name in the same scope before that of a function definition. -/
def previousDeclaration? (node : NodeId) (name : String) : Option Declaration :=
  match p.bindings.scope? (p.bindings.scopeContaining p.arena node) with
  | none => none
  | some scope =>
    let ds := (scope.symbols.get? name).getD []
    match ds.findIdx? fun d => d.node == node with
    | some place => (ds.take place).getLast?
    | none => none

/-- The overloads that a function definition follows. -/
def previousOverloads? (node : NodeId) (name : String) : Evaluation (Option (List TypeId)) := do
  match (previousDeclaration? p node name).filter (·.kind == .function) with
  | none => return none
  | some d =>
    match ← ask (.function d.node) with
    | none => return none
    | some types =>
      let s ← store
      match s.shape? types.decorated with
      | some (.overloaded overloads) =>
        return match overloads.getLast? with
          | some last => if isOverload s last then some overloads else none
          | none => none
      | some (.function ..) =>
        return if isOverload s types.decorated then some [types.decorated] else none
      | _ => return none

/-- Joins a function with the overloads it follows. -/
def joined (node : NodeId) (name : String) (decorated : TypeId) : Evaluation TypeId := do
  match ← previousOverloads? p node name with
  | some overloads => onStore (·.addValue (.overloaded (overloads ++ [decorated])))
  | none => return decorated

/-- Works out a function definition in the body of `owner`. -/
def newFunction (node : NodeId) (decorators : List NodeId) (isAsync : Bool)
    (parameters : List NodeId) (returnHint : Option NodeId) (owner : Option ClassId) :
    Evaluation DefinitionTypes := do
  let name := p.definitionName node
  let flags ← functionFlags p node name decorators isAsync owner
  let detail ← onStore (·.addFunction
    ⟨name, p.qualifiedName node name, p.moduleName, flags, [], none, some node⟩)
  let functionType ← onStore (·.addValue (.function detail none none))
  keepFunction node ⟨functionType, functionType⟩
  completeSignature p detail flags owner parameters returnHint
  let decorated ← (decorators.filterMap p.decoratorExpression?).reverse.foldlM
    (decorateFunction p detail) functionType
  let decorated ← joined p node name decorated
  keepFunction node ⟨functionType, decorated⟩
  return ⟨functionType, decorated⟩

/-- The types of a function definition, if the node is one. Working out the class around it works
out its methods, possibly this one. -/
def function (node : NodeId) : Evaluation (Option DefinitionTypes) := do
  match (← get).functions.lookup node with
  | some types => return some types
  | none =>
    match p.arena.form? node with
    | some (.function decorators isAsync _ parameters returnHint _) =>
      let owner ← ownerOf p node
      match (← get).functions.lookup node with
      | some types => return some types
      | none =>
        return some (← newFunction p node decorators isAsync parameters returnHint owner)
    | _ => return none

end Rules

end TypeProbe.Definitions
