import TypeProbe.Types.Store

/-!
# Modules that are known beforehand

Three modules need not be read: their classes and functions are put into every new store
(`Builtins.create`), in a fixed order, so that they have the same handles in all stores. `Builtins`
holds the handles of the classes that have a part in the rules of evaluation.
-/

namespace TypeProbe

/-- Functions that, as decorators, only mark a definition. -/
inductive Marker where
  | overload | final | runtimeCheckable | abstractMethod
deriving DecidableEq, Inhabited, Repr

instance : Labelled Marker where
  members := [.overload, .final, .runtimeCheckable, .abstractMethod]
  label
    | .overload => "overload" | .final => "final" | .runtimeCheckable => "runtime_checkable"
    | .abstractMethod => "abstractmethod"

/-- Handles of what is known beforehand. -/
structure Builtins where
  object : ClassId
  metaclass : ClassId
  int : ClassId
  float : ClassId
  complex : ClassId
  text : ClassId
  bytes : ClassId
  bool : ClassId
  list : ClassId
  dictionary : ClassId
  set : ClassId
  tuple : ClassId
  slice : ClassId
  ellipsis : ClassId
  range : ClassId
  property : ClassId
  staticMethod : ClassId
  classMethod : ClassId
  baseException : ClassId
  typeVar : ClassId
  generic : ClassId
  coroutine : ClassId
  generator : ClassId
  /-- The functions that only mark definitions. -/
  markers : List (Marker × TypeId)
  /-- The modules by name. -/
  modules : Named TypeId
deriving DecidableEq, Inhabited

/-- A module that is being put together. -/
structure ModuleDraft where
  /-- The store it goes into. -/
  store : TypeStore
  /-- Its name. -/
  name : String
  /-- The class of its classes, once there is one. -/
  metaclass : Option TypeId
  /-- Its members so far. -/
  members : Named TypeId

/-- A step in putting a module together. -/
abbrev Drafting (α : Type) := StateM ModuleDraft α

namespace Drafting

/-- Works on the store. -/
def onStore {α : Type} (work : TypeStore → α × TypeStore) : Drafting α :=
  modifyGet fun d => let (a, store) := work d.store; (a, { d with store })

/-- Gives the module a member. -/
def define (name : String) (type : TypeId) : Drafting Unit :=
  modify fun d => { d with members := d.members.insert name type }

/-- Adds a class with properties. Its ancestors are those of its bases, base by base. -/
def classWith (flags : List ClassFlag) (name : String) (bases : List ClassId) :
    Drafting ClassId := do
  let draft ← get
  let detail := ClassDetail.named name draft.name (Flags.ofList (.builtInClass :: flags))
  let id ← onStore (·.addClass { detail with effectiveMetaclass := draft.metaclass })
  let type ← onStore (·.classType id)
  let baseTypes ← bases.mapM fun base => onStore (·.classType base)
  let store := (← get).store
  let ancestors := (bases.filterMap store.class?).flatMap (·.mro)
  let mro := ancestors.foldl TypeStore.insertNew [type]
  onStore fun s => ((), s.modifyClass id fun c => { c with bases := baseTypes, mro })
  define name type
  return id

/-- Adds a class. -/
def plainClass : (name : String) → (bases : List ClassId) → Drafting ClassId := classWith []

/-- Adds a form of type hints, which is kept as a class without bases. -/
def specialForm (name : String) : Drafting ClassId := classWith [.specialBuiltIn] name []

/-- Gives a class a further name. -/
def secondName (name : String) (target : ClassId) : Drafting Unit := do
  define name (← onStore (·.classType target))

/-- A parameter with the given type. -/
def parameter (hasDeclaredType : Bool) : String × TypeId → Parameter
  | (name, type) => ⟨.simple, some name, hasDeclaredType, type, false⟩

/-- Adds a function type. -/
def functionType (name fullName : String) (parameters : List Parameter) (returns : TypeId) :
    Drafting TypeId := do
  let moduleName := (← get).name
  let detail ← onStore
    (·.addFunction ⟨name, fullName, moduleName, Flags.empty, parameters, some returns, none⟩)
  onStore (·.addValue (.function detail none none))

/-- Adds a method to a class. -/
def method (owner : ClassId) (name : String) (parameters : List (String × TypeId))
    (returns : TypeId) : Drafting Unit := do
  let ownerName := (((← get).store.class? owner).map (·.fullName)).getD ""
  let receiver ← onStore (·.instanceOf owner)
  let type ← functionType name (ownerName ++ "." ++ name)
    (parameter false ("self", receiver) :: parameters.map (parameter true)) returns
  onStore fun s =>
    ((), s.modifyClass owner fun c => { c with fields := c.fields.insert name type })

/-- Adds a function to the module. -/
def function (name : String) (parameters : List (String × TypeId)) (returns : TypeId) :
    Drafting TypeId := do
  let fullName := (← get).name ++ "." ++ name
  let type ← functionType name fullName (parameters.map (parameter true)) returns
  define name type
  return type

/-- Adds a function that only marks definitions. -/
def marker (m : Marker) : Drafting (Marker × TypeId) :=
  return (m, ← function (label m) [("f", .unknown)] .unknown)

/-- Puts a module together in a store. -/
def run {α : Type} (name : String) (metaclass : Option TypeId) (draft : Drafting α) :
    StateM TypeStore (α × TypeId) := do
  let (a, finished) := StateT.run draft { store := ← get, name, metaclass, members := [] }
  set finished.store
  let type ← modifyGet fun s => s.addValue (.module name finished.members)
  return (a, type)

end Drafting

namespace Builtins

open Drafting

/-- The classes and functions that need no import, and the type of the class of classes. -/
def core : Drafting (Builtins × TypeId) := do
  let object ← plainClass "object" []
  let metaclass ← plainClass "type" [object]
  let metaclassType ← onStore (·.classType metaclass)
  for root in [object, metaclass] do
    onStore fun s =>
      ((), s.modifyClass root fun c => { c with effectiveMetaclass := some metaclassType })
  modify fun d => { d with metaclass := some metaclassType }
  let int ← plainClass "int" [object]
  let float ← plainClass "float" [object]
  let complex ← plainClass "complex" [object]
  let text ← plainClass "str" [object]
  let bytes ← plainClass "bytes" [object]
  let bool ← plainClass "bool" [int]
  let list ← plainClass "list" [object]
  let dictionary ← plainClass "dict" [object]
  let set ← plainClass "set" [object]
  let tuple ← classWith [.tupleClass] "tuple" [object]
  let slice ← plainClass "slice" [object]
  let ellipsis ← plainClass "ellipsis" [object]
  let range ← plainClass "range" [object]
  let property ← classWith [.propertyClass] "property" [object]
  let staticMethod ← plainClass "staticmethod" [object]
  let classMethod ← plainClass "classmethod" [object]
  let baseException ← plainClass "BaseException" [object]
  let exception ← plainClass "Exception" [baseException]
  for name in ["ValueError", "TypeError", "KeyError", "RuntimeError"] do
    let _ ← plainClass name [exception]
  let intType ← onStore (·.instanceOf int)
  let textType ← onStore (·.instanceOf text)
  let boolType ← onStore (·.instanceOf bool)
  let objectType ← onStore (·.instanceOf object)
  let textsType ← onStore (·.specializedInstance list [textType])
  method object "__init__" [] .noneValue
  method object "__repr__" [] textType
  method text "upper" [] textType
  method text "lower" [] textType
  method text "strip" [] textType
  method text "join" [("iterable", objectType)] textType
  method text "split" [] textsType
  method list "append" [("item", objectType)] .noneValue
  method list "__len__" [] intType
  method dictionary "__len__" [] intType
  let _ ← function "len" [("obj", objectType)] intType
  let _ ← function "print" [("values", objectType)] .noneValue
  let _ ← function "isinstance" [("obj", objectType), ("cls", objectType)] boolType
  let _ ← function "repr" [("obj", objectType)] textType
  let _ ← function "id" [("obj", objectType)] intType
  return ({ (default : Builtins) with
    object, metaclass, int, float, complex, text, bytes, bool, list, dictionary, set, tuple, slice,
    ellipsis, range, property, staticMethod, classMethod, baseException }, metaclassType)

/-- The forms of type hints, and the classes and markers that are imported with them. -/
def hints (b : Builtins) : Drafting Builtins := do
  let typeVar ← plainClass "TypeVar" [b.object]
  let generic ← specialForm "Generic"
  let _ ← classWith [.protocolClass, .specialBuiltIn] "Protocol" [generic]
  for form in ["Any", "Optional", "Union", "Literal", "Callable", "ClassVar", "Final", "Type"] do
    let _ ← specialForm form
  secondName "List" b.list
  secondName "Dict" b.dictionary
  secondName "Set" b.set
  secondName "Tuple" b.tuple
  let coroutine ← plainClass "Coroutine" [b.object]
  let generator ← plainClass "Generator" [b.object]
  let markers ← [Marker.overload, .final, .runtimeCheckable].mapM marker
  return { b with typeVar, generic, coroutine, generator, markers }

/-- The class and the marker for classes that are not complete. -/
def abstractBases (b : Builtins) : Drafting Builtins := do
  let _ ← classWith [.supportsAbstractMethods] "ABC" [b.object]
  return { b with markers := b.markers ++ [← marker .abstractMethod] }

/-- Puts all modules that are known beforehand into a store. -/
def create : StateM TypeStore Builtins := do
  let ((b, metaclassType), coreModule) ← Drafting.run "builtins" none core
  let (b, hintModule) ← Drafting.run "typing" (some metaclassType) (hints b)
  let (b, abstractModule) ← Drafting.run "abc" (some metaclassType) (abstractBases b)
  return { b with
    modules := [("builtins", coreModule), ("typing", hintModule), ("abc", abstractModule)] }

/-- The type of a module. -/
def module? (b : Builtins) (name : String) : Option TypeId := b.modules.get? name

/-- The member of a module with the given type. -/
def memberOf? (s : TypeStore) (module : TypeId) (name : String) : Option TypeId :=
  match s.shape? module with
  | some (.module _ members) => members.get? name
  | _ => none

/-- What a name that needs no import stands for. -/
def name? (b : Builtins) (s : TypeStore) (name : String) : Option TypeId :=
  (b.module? "builtins").bind fun module => memberOf? s module name

/-- The marker that a type is. -/
def marker? (b : Builtins) (type : TypeId) : Option Marker :=
  (b.markers.find? fun (_, t) => t == type).map (·.1)

end Builtins

end TypeProbe
