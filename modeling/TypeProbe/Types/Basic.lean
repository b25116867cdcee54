import TypeProbe.Named
import TypeProbe.Tree.Node
import TypeProbe.Types.Flags

/-!
# Types and the details they share

A type is a record in a store and is known by its handle (`TypeId`): two records that look the same
are still two types. What all types made from one class share is the class's detail, known by a
handle of its own; in the same way functions and type variables have details. Handles let a class be
among its own ancestors and a function mention the class it belongs to.
-/

namespace TypeProbe

/-- The handle of a type. -/
structure TypeId where
  /-- The place in the store. -/
  index : Nat
deriving DecidableEq, Inhabited, Repr

/-- The handle of a class's detail. -/
structure ClassId where
  /-- The place in the store. -/
  index : Nat
deriving DecidableEq, Inhabited, Repr

/-- The handle of a function's detail. -/
structure FunctionId where
  /-- The place in the store. -/
  index : Nat
deriving DecidableEq, Inhabited, Repr

/-- The handle of a type variable's detail. -/
structure TypeVarId where
  /-- The place in the store. -/
  index : Nat
deriving DecidableEq, Inhabited, Repr

/-- The one value of a literal type. -/
inductive LiteralValue where
  | int (value : Int)
  | float (value : Binary64)
  | bool (value : Bool)
  | text (value : String)
deriving DecidableEq, Inhabited, Repr

namespace LiteralValue

/-- Whether two values are equal; what is no number is not equal to itself. -/
def equals : LiteralValue → LiteralValue → Bool
  | .float x, .float y => x.equals y
  | x, y => x == y

end LiteralValue

/-- A parameter that is left to be filled when a function is bound to its receiver. -/
structure OpenParameter where
  /-- What it takes. -/
  category : ParameterCategory
  /-- Its name, if it has one. -/
  name : Option String
  /-- Its type. -/
  type : TypeId
deriving DecidableEq, Inhabited, Repr

/-- What a type is made of. -/
inductive TypeShape where
  /-- A name without a value. -/
  | unbound
  /-- Nothing is known; `incomplete` if the answer was still being worked out. -/
  | unknown (incomplete : Bool)
  /-- Anything goes. -/
  | any
  /-- The type of the value that stands for nothing. -/
  | noneValue
  /-- No value. -/
  | never
  /-- A function, possibly bound to a receiver, with the parameters that are left. -/
  | function (detail : FunctionId) (receiver : Option TypeId)
      (openParameters : Option (List OpenParameter))
  /-- Several functions of which a call takes the first that fits. -/
  | overloaded (overloads : List TypeId)
  /-- A class or its values, possibly with type arguments or one literal value. -/
  | nominal (detail : ClassId) (arguments : Option (List TypeId)) (literal : Option LiteralValue)
  /-- A module with its members. -/
  | module (name : String) (members : Named TypeId)
  /-- The values of several types. -/
  | union (members : List TypeId)
  /-- A type variable, possibly as it is used in one definition. -/
  | typeVar (detail : TypeVarId) (scope : Option String) (scopedName : Option String)
deriving DecidableEq, Inhabited, Repr

namespace TypeShape

/-- The category of a type. -/
def category : TypeShape → TypeCategory
  | .unbound => .unbound
  | .unknown _ => .unknown
  | .any => .any
  | .noneValue => .none
  | .never => .never
  | .function .. => .function
  | .overloaded _ => .overloadedFunction
  | .nominal .. => .class
  | .module .. => .module
  | .union _ => .union
  | .typeVar .. => .typeVar

/-- Whether two shapes are equal: modules have the same members in any order, and a literal that is
no number equals nothing. -/
def equals : TypeShape → TypeShape → Bool
  | .nominal c args literal, .nominal c' args' literal' =>
    c == c' && args == args' &&
      match literal, literal' with
      | some x, some y => x.equals y
      | x, y => x == y
  | .module name members, .module name' members' =>
    name == name' && members.length == members'.length &&
      members.all fun (key, type) => Named.get? members' key == some type
  | x, y => x == y

end TypeShape

/-- A type. -/
structure TypeRecord where
  /-- Whether it stands for a class, for values, or for both. -/
  flags : Flags TypeFlag
  /-- What it is made of. -/
  shape : TypeShape
deriving DecidableEq, Inhabited, Repr

namespace TypeRecord

/-- Whether the type stands for a class. -/
def isInstantiable (t : TypeRecord) : Bool := t.flags.has .instantiable

/-- Whether the type stands for values. -/
def isInstance (t : TypeRecord) : Bool := t.flags.has .instance

/-- The class of a type that is a class or its values. -/
def class? (t : TypeRecord) : Option ClassId :=
  match t.shape with
  | .nominal detail _ _ => some detail
  | _ => none

/-- The function of a function type. -/
def function? (t : TypeRecord) : Option FunctionId :=
  match t.shape with
  | .function detail _ _ => some detail
  | _ => none

/-- Whether two types look the same. -/
def equals (s t : TypeRecord) : Bool := s.flags == t.flags && s.shape.equals t.shape

end TypeRecord

/-- What all types made from one class share. -/
structure ClassDetail where
  /-- Its name. -/
  name : String
  /-- Its name after those of the module and the definitions around it. -/
  fullName : String
  /-- The module it is defined in. -/
  moduleName : String
  /-- Its properties. -/
  flags : Flags ClassFlag
  /-- The number of the class among all classes of the store, counted from 1. -/
  sourceId : Nat
  /-- The classes it is derived from. -/
  bases : List TypeId
  /-- The class and its ancestors, in the order in which members are looked for. -/
  mro : List TypeId
  /-- The class of the class that is given with its definition. -/
  declaredMetaclass : Option TypeId
  /-- The class of the class. -/
  effectiveMetaclass : Option TypeId
  /-- The types of its members. -/
  fields : Named TypeId
  /-- The type variables it is generic in. -/
  typeParameters : List TypeId
  /-- The text at the start of its body. -/
  doc : Option String
  /-- The node that defines it. -/
  declaration : Option NodeId
deriving DecidableEq, Inhabited, Repr

/-- A class of which nothing but its name, module and properties is known. -/
def ClassDetail.named (name moduleName : String) (flags : Flags ClassFlag) : ClassDetail where
  name := name
  fullName := if moduleName = "" then name else moduleName ++ "." ++ name
  moduleName := moduleName
  flags := flags
  sourceId := 0
  bases := []
  mro := []
  declaredMetaclass := none
  effectiveMetaclass := none
  fields := []
  typeParameters := []
  doc := none
  declaration := none

/-- A parameter of a function. -/
structure Parameter where
  /-- What it takes. -/
  category : ParameterCategory
  /-- Its name, if it has one. -/
  name : Option String
  /-- Whether its type is given. -/
  hasDeclaredType : Bool
  /-- Its type. -/
  type : TypeId
  /-- Whether it has a value without an argument. -/
  hasDefault : Bool
deriving DecidableEq, Inhabited, Repr

/-- The parameter as one that is left to be filled. -/
def Parameter.toOpen (p : Parameter) : OpenParameter := ⟨p.category, p.name, p.type⟩

/-- What all types made from one function share. -/
structure FunctionDetail where
  /-- Its name. -/
  name : String
  /-- Its name after those of the module and the definitions around it. -/
  fullName : String
  /-- The module it is defined in. -/
  moduleName : String
  /-- Its properties. -/
  flags : Flags FunctionFlag
  /-- Its parameters, in order. -/
  parameters : List Parameter
  /-- The type it is said to return. -/
  declaredReturn : Option TypeId
  /-- The node that defines it. -/
  declaration : Option NodeId
deriving DecidableEq, Inhabited, Repr

/-- What all uses of one type variable share. -/
structure TypeVarDetail where
  /-- Its name. -/
  name : String
  /-- The types it is restricted to. -/
  constraints : List TypeId
  /-- The type it lies below. -/
  bound : Option TypeId
  /-- How it may vary. -/
  variance : Variance
deriving DecidableEq, Inhabited, Repr

end TypeProbe
