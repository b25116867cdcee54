import TypeProbe.Types.Basic

/-!
# The store of types

A `TypeStore` holds all types and details; they are added at the end and never taken away. The types
without parts come first. The plain type of a class, and the plain type of its values, are made once
for every class (`classType`, `instanceOf`); literal types and types with arguments are made afresh.
`unionOf` makes the union of types: members of unions are taken over one by one and each once, and a
union of a single member is that member. It takes it for granted that the types are there; the store
notes if one is not (`overran`).
-/

namespace TypeProbe

namespace TypeId

/-- The type of a name without a value. -/
def unbound : TypeId := ⟨0⟩

/-- The type of which nothing is known. -/
def unknown : TypeId := ⟨1⟩

/-- The type of which nothing is known as its evaluation is still going on. -/
def incomplete : TypeId := ⟨2⟩

/-- The type of which anything is accepted. -/
def any : TypeId := ⟨3⟩

/-- The type of the value that stands for nothing. -/
def noneValue : TypeId := ⟨4⟩

/-- The type without values. -/
def never : TypeId := ⟨5⟩

end TypeId

/-- All types and details. -/
structure TypeStore where
  /-- The types; the handle of a type is its index. -/
  types : Array TypeRecord
  /-- The details of classes. -/
  classes : Array ClassDetail
  /-- The details of functions. -/
  functions : Array FunctionDetail
  /-- The details of type variables. -/
  typeVars : Array TypeVarDetail
  /-- The plain types of classes that have been asked for. -/
  classTypes : List (ClassId × TypeId)
  /-- The plain types of values that have been asked for. -/
  instances : List (ClassId × TypeId)
  /-- Whether a union has been asked for of a handle that no type has. -/
  overran : Bool
deriving DecidableEq, Inhabited

namespace TypeStore

/-- The flags of types that stand for a class and for values alike. -/
def bothFlags : Flags TypeFlag := Flags.ofList [.instantiable, .instance]

/-- The flags of types that stand for values. -/
def valueFlags : Flags TypeFlag := Flags.only .instance

/-- The flags of types that stand for a class. -/
def classFlags : Flags TypeFlag := Flags.only .instantiable

/-- The store that holds only the types without parts. -/
def initial : TypeStore where
  types := #[⟨bothFlags, .unbound⟩, ⟨bothFlags, .unknown false⟩, ⟨bothFlags, .unknown true⟩,
    ⟨bothFlags, .any⟩, ⟨valueFlags, .noneValue⟩, ⟨bothFlags, .never⟩]
  classes := #[]
  functions := #[]
  typeVars := #[]
  classTypes := []
  instances := []
  overran := false

/-- The number of types. -/
def typeCount (s : TypeStore) : Nat := s.types.size

/-- The type with the given handle. -/
def get? (s : TypeStore) (id : TypeId) : Option TypeRecord := s.types[id.index]?

/-- What the type with the given handle is made of. -/
def shape? (s : TypeStore) (id : TypeId) : Option TypeShape := (s.get? id).map (·.shape)

/-- The class with the given handle. -/
def class? (s : TypeStore) (id : ClassId) : Option ClassDetail := s.classes[id.index]?

/-- The function with the given handle. -/
def function? (s : TypeStore) (id : FunctionId) : Option FunctionDetail := s.functions[id.index]?

/-- The type variable with the given handle. -/
def typeVar? (s : TypeStore) (id : TypeVarId) : Option TypeVarDetail := s.typeVars[id.index]?

/-- The handle of the class of a type that is a class or its values. -/
def classIdOf? (s : TypeStore) (id : TypeId) : Option ClassId := (s.get? id).bind (·.class?)

/-- The class of a type that is a class or its values. -/
def classOf? (s : TypeStore) (id : TypeId) : Option ClassDetail := (s.classIdOf? id).bind s.class?

/-- The function of a function type. -/
def functionOf? (s : TypeStore) (id : TypeId) : Option FunctionDetail :=
  ((s.get? id).bind (·.function?)).bind s.function?

/-- The type arguments of a type, if it has any. -/
def argumentsOf? (s : TypeStore) (id : TypeId) : Option (List TypeId) :=
  match s.shape? id with
  | some (.nominal _ arguments _) => arguments
  | _ => none

/-- The class of a type that stands for values of a class, and the literal value if it has one. -/
def instance? (s : TypeStore) (id : TypeId) : Option (ClassId × Option LiteralValue) :=
  match s.get? id with
  | some t =>
    if t.isInstance then
      match t.shape with
      | .nominal detail _ literal => some (detail, literal)
      | _ => none
    else none
  | none => none

/-- The class of a type that stands for values of a class. -/
def instanceClass? (s : TypeStore) (id : TypeId) : Option ClassId := (s.instance? id).map (·.1)

/-- Whether a type stands for the given class itself, with or without type arguments. -/
def isClassObject (s : TypeStore) (id : TypeId) (detail : ClassId) : Bool :=
  match s.get? id with
  | some t => t.isInstantiable && t.class? == some detail
  | none => false

/-- Whether nothing is known of a type. -/
def isUnknown (s : TypeStore) (id : TypeId) : Bool :=
  match s.shape? id with
  | some (.unknown _) | none => true
  | _ => false

/-- Whether a type is a type variable with the given detail. -/
def isTypeVar (s : TypeStore) (detail : TypeVarId) (id : TypeId) : Bool :=
  match s.shape? id with
  | some (.typeVar d _ _) => d == detail
  | _ => false

/-- Whether a class has a property. -/
def classHas (s : TypeStore) (detail : ClassId) (flag : ClassFlag) : Bool :=
  match s.class? detail with
  | some c => c.flags.has flag
  | none => false

/-- The full name of a class, empty without such a class. -/
def fullNameOf (s : TypeStore) (detail : ClassId) : String :=
  match s.class? detail with
  | some c => c.fullName
  | none => ""

/-- Whether a function has a property. -/
def functionHas (s : TypeStore) (detail : FunctionId) (flag : FunctionFlag) : Bool :=
  match s.function? detail with
  | some f => f.flags.has flag
  | none => false

/-- Adds a type. -/
def add (s : TypeStore) (t : TypeRecord) : TypeId × TypeStore :=
  (⟨s.types.size⟩, { s with types := s.types.push t })

/-- Adds a type that stands for values. -/
def addValue (s : TypeStore) (shape : TypeShape) : TypeId × TypeStore := s.add ⟨valueFlags, shape⟩

/-- Adds a class, which gets its number. -/
def addClass (s : TypeStore) (c : ClassDetail) : ClassId × TypeStore :=
  (⟨s.classes.size⟩, { s with classes := s.classes.push { c with sourceId := s.classes.size + 1 } })

/-- Adds a function. -/
def addFunction (s : TypeStore) (f : FunctionDetail) : FunctionId × TypeStore :=
  (⟨s.functions.size⟩, { s with functions := s.functions.push f })

/-- Adds a type variable. -/
def addTypeVar (s : TypeStore) (v : TypeVarDetail) : TypeVarId × TypeStore :=
  (⟨s.typeVars.size⟩, { s with typeVars := s.typeVars.push v })

/-- Changes a type, if it exists. -/
def modify (s : TypeStore) (id : TypeId) (change : TypeRecord → TypeRecord) : TypeStore :=
  { s with types := s.types.modify id.index change }

/-- Changes a class, if it exists. -/
def modifyClass (s : TypeStore) (id : ClassId) (change : ClassDetail → ClassDetail) : TypeStore :=
  { s with classes := s.classes.modify id.index change }

/-- Changes a function, if it exists. -/
def modifyFunction (s : TypeStore) (id : FunctionId) (change : FunctionDetail → FunctionDetail) :
    TypeStore :=
  { s with functions := s.functions.modify id.index change }

/-- The plain type of a class, the same at every call. -/
def classType (s : TypeStore) (detail : ClassId) : TypeId × TypeStore :=
  match s.classTypes.lookup detail with
  | some id => (id, s)
  | none =>
    let (id, s) := s.add ⟨classFlags, .nominal detail none none⟩
    (id, { s with classTypes := (detail, id) :: s.classTypes })

/-- The plain type of the values of a class, the same at every call. -/
def instanceOf (s : TypeStore) (detail : ClassId) : TypeId × TypeStore :=
  match s.instances.lookup detail with
  | some id => (id, s)
  | none =>
    let (id, s) := s.addValue (.nominal detail none none)
    (id, { s with instances := (detail, id) :: s.instances })

/-- A new type of a class with type arguments. -/
def specializedClass (s : TypeStore) (detail : ClassId) (arguments : List TypeId) :
    TypeId × TypeStore :=
  s.add ⟨classFlags, .nominal detail (some arguments) none⟩

/-- A new type of the values of a class with type arguments. -/
def specializedInstance (s : TypeStore) (detail : ClassId) (arguments : List TypeId) :
    TypeId × TypeStore :=
  s.addValue (.nominal detail (some arguments) none)

/-- A new type of one value of a class. -/
def literal (s : TypeStore) (detail : ClassId) (value : LiteralValue) : TypeId × TypeStore :=
  s.addValue (.nominal detail none (some value))

/-- The types whose values a type has: the members of a union, or the type itself. -/
def membersOf (s : TypeStore) (id : TypeId) : List TypeId :=
  match s.shape? id with
  | some (.union members) => members
  | _ => [id]

/-- A list with a further element at its end, unless it has that element. -/
def insertNew {α : Type} [BEq α] (list : List α) (a : α) : List α :=
  if list.contains a then list else list ++ [a]

/-- The members of the given types, each once, in the order in which they first come up. -/
def flatten (s : TypeStore) (ids : List TypeId) : List TypeId :=
  (ids.flatMap s.membersOf).foldl insertNew []

/-- Looks up the given types without a check, and notes if one of them is not there. -/
def lookUpAll (s : TypeStore) (ids : List TypeId) : TypeStore :=
  { s with overran := s.overran || ids.any fun id => (s.get? id).isNone }

/-- The type of the values of any of the given types: no type without members, the only member, or a
new union. -/
def unionOf (s : TypeStore) (ids : List TypeId) : TypeId × TypeStore :=
  let found := s.lookUpAll ids
  match s.flatten ids with
  | [] => (TypeId.never, found)
  | [id] => (id, found)
  | members => found.addValue (.union members)

/-- The type of a member of a class: its own, or that of the first ancestor that has one. -/
def member? (s : TypeStore) (detail : ClassId) (name : String) : Option TypeId :=
  match s.class? detail with
  | none => none
  | some c =>
    (c.fields.get? name).or
      ((c.mro.filterMap s.classOf?).findSome? fun ancestor => ancestor.fields.get? name)

end TypeStore

end TypeProbe
