import TypeProbe.Text.Json
import TypeProbe.Token.Printer
import TypeProbe.Tree.Printer
import TypeProbe.Types.Store

/-!
# Short texts of types

`TypeStore.describe` gives a type in one line: its name, the types it is made of, and whether it
stands for a class itself. It tells apart what a reader of a program would tell apart, and does not
go into the details of classes and functions.
-/

namespace TypeProbe

/-- The text of a literal value. -/
def LiteralValue.describe : LiteralValue → String
  | .int n => s!"Literal[{n}]"
  | .float x =>
    let number := Decimal.plainFormat.text x
    s!"Literal[float {number}]"
  | .bool b => s!"Literal[{flagText b}]"
  | .text s => s!"Literal[{Json.quote s}]"

namespace TypeStore

/-- The text of a function without its receiver. -/
def signatureText (s : TypeStore) (detail : FunctionId) : String :=
  match s.function? detail with
  | some f => s!"def {f.fullName}/{f.parameters.length}"
  | none => "<dangling function>"

/-- Texts with commas between them. -/
def joinTexts (texts : List String) : String := ", ".intercalate texts

/-- The text of what a type is made of, given the texts of types. -/
def describeShape (s : TypeStore) (describe : TypeId → String) (instantiable : Bool) :
    TypeShape → String
  | .unbound => "Unbound"
  | .unknown incomplete => if incomplete then "Unknown(incomplete)" else "Unknown"
  | .any => "Any"
  | .noneValue => "None"
  | .never => "Never"
  | .function detail receiver openParameters =>
    let bound := match receiver with
      | some type => " bound to " ++ describe type
      | none => ""
    let left := match openParameters with
      | some ps => s!" leaving {ps.length}"
      | none => ""
    s.signatureText detail ++ bound ++ left
  | .overloaded overloads => "Overload[" ++ joinTexts (overloads.map describe) ++ "]"
  | .nominal detail arguments literal =>
    let name := match literal with
      | some value => value.describe
      | none => s.fullNameOf detail
    let name := match arguments with
      | some types => name ++ "[" ++ joinTexts (types.map describe) ++ "]"
      | none => name
    if instantiable then "type[" ++ name ++ "]" else name
  | .module name _ => s!"Module({name})"
  | .union members => "(" ++ " | ".intercalate (members.map describe) ++ ")"
  | .typeVar detail scope scopedName =>
    let name := ((s.typeVar? detail).map (·.name)).getD ""
    "TypeVar(" ++ joinTexts [name, scope.getD "-", scopedName.getD "-"] ++ ")"

/-- The text of a type, `fuel` levels deep. -/
def describeAt (s : TypeStore) : (fuel : Nat) → TypeId → String
  | 0, _ => ""
  | fuel + 1, id =>
    match s.get? id with
    | some t => s.describeShape (s.describeAt fuel) t.isInstantiable t.shape
    | none => "<dangling>"

/-- The text of a type. A type is made of types that were there before it, so there are no more
levels than types. -/
def describe (s : TypeStore) (id : TypeId) : String := s.describeAt (s.types.size + 1) id

end TypeStore

end TypeProbe
