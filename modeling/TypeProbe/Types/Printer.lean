import TypeProbe.Text.Json
import TypeProbe.Tree.Printer
import TypeProbe.Types.Store

/-!
# Type graphs

A type leads to other types, details and nodes through its parts, and may lead back to itself.
`TypeGraph.outline?` says what is shown of each of them, with handles (`Handle`) in the place of
what else is shown there. `TypeGraph.render` goes through the graph and shows what stands behind
each handle where the handle first comes up; where it comes up again a class, a function or a type
variable is shown by a short mark (`TypeGraph.mark?`), and anything else is left out.
-/

namespace TypeProbe

/-- What can come up more than once in a type graph. -/
inductive Handle where
  /-- A type. -/
  | type (id : TypeId)
  /-- The detail of a class. -/
  | classDetail (id : ClassId)
  /-- The detail of a function. -/
  | functionDetail (id : FunctionId)
  /-- The detail of a type variable. -/
  | typeVarDetail (id : TypeVarId)
  /-- A node of the tree. -/
  | node (id : NodeId)
deriving DecidableEq, Inhabited, Repr

/-- A value with handles in it. -/
inductive Outline where
  /-- What stands behind a handle. -/
  | handle (h : Handle)
  /-- A value without handles. -/
  | leaf (value : Json)
  /-- A list of such values. -/
  | list (items : List Outline)
  /-- Named values in order. -/
  | record (fields : List (String × Outline))

namespace Outline

/-- A text. -/
def text (s : String) : Outline := .leaf (.text s)

/-- A truth value. -/
def bool (b : Bool) : Outline := .leaf (.bool b)

/-- A type. -/
def type (id : TypeId) : Outline := .handle (.type id)

/-- A list of types. -/
def types (ids : List TypeId) : Outline := .list (ids.map type)

/-- Types by name. -/
def named (members : Named TypeId) : Outline :=
  .record (members.map fun (name, id) => (name, type id))

/-- A field that is left out without a value. -/
def optional {α : Type} (name : String) (value : Option α) (outline : α → Outline) :
    List (String × Outline) :=
  match value with
  | some a => [(name, outline a)]
  | none => []

end Outline

/-- What a literal value is shown as. -/
def LiteralValue.toJson : LiteralValue → Json
  | .int n => .int n
  | .float x => .float x
  | .bool b => .bool b
  | .text s => .text s

/-- What is shown of a parameter. -/
def Parameter.outline (p : Parameter) : Outline :=
  .record ([("category", .text (label p.category))] ++ Outline.optional "name" p.name .text ++
    [("hasDeclaredType", .bool p.hasDeclaredType), ("type", .type p.type),
      ("hasDefault", .bool p.hasDefault)])

/-- What is shown of a parameter that is left to be filled. -/
def OpenParameter.outline (p : OpenParameter) : Outline :=
  .record ([("category", .text (label p.category))] ++ Outline.optional "name" p.name .text ++
    [("type", .type p.type)])

/-- What is shown of the shape of a type. -/
def TypeShape.fields : TypeShape → List (String × Outline)
  | .unbound | .any | .noneValue | .never => []
  | .unknown incomplete => [("isIncomplete", .bool incomplete)]
  | .function detail receiver openParameters =>
    [("details", .handle (.functionDetail detail))] ++
      Outline.optional "boundToType" receiver .type ++
      Outline.optional "boundParameters" openParameters fun ps => .list (ps.map (·.outline))
  | .overloaded overloads => [("overloads", .types overloads)]
  | .nominal detail arguments literal =>
    [("details", .handle (.classDetail detail))] ++
      Outline.optional "typeArguments" arguments .types ++
      Outline.optional "literalValue" literal fun value => .leaf value.toJson
  | .module name members => [("moduleName", .text name), ("fields", .named members)]
  | .union members => [("subtypes", .types members)]
  | .typeVar detail scope scopedName =>
    [("details", .handle (.typeVarDetail detail))] ++ Outline.optional "scopeId" scope .text ++
      Outline.optional "nameWithScope" scopedName .text

/-- What is shown of a type; the category of values differs from that of their class. -/
def TypeRecord.outline (t : TypeRecord) : Outline :=
  let category := if t.shape.category = .class ∧ !t.isInstantiable then "Object"
    else label t.shape.category
  .record ([("category", .text category), ("flags", .text t.flags.text)] ++ t.shape.fields)

/-- What is shown of the detail of a class. -/
def ClassDetail.outline (c : ClassDetail) : Outline :=
  .record ([("name", .text c.name), ("fullName", .text c.fullName),
      ("moduleName", .text c.moduleName), ("flags", .text c.flags.text),
      ("typeSourceId", .leaf (.int c.sourceId)), ("baseClasses", .types c.bases),
      ("mro", .types c.mro)] ++
    Outline.optional "declaredMetaclass" c.declaredMetaclass .type ++
    Outline.optional "effectiveMetaclass" c.effectiveMetaclass .type ++
    [("fields", .named c.fields), ("typeParameters", .types c.typeParameters)] ++
    Outline.optional "docString" c.doc .text ++
    Outline.optional "declaration" c.declaration fun node => .handle (.node node))

/-- What is shown of the detail of a function. -/
def FunctionDetail.outline (f : FunctionDetail) : Outline :=
  .record ([("name", .text f.name), ("fullName", .text f.fullName),
      ("moduleName", .text f.moduleName), ("flags", .text f.flags.text),
      ("parameters", .list (f.parameters.map (·.outline)))] ++
    Outline.optional "declaredReturnType" f.declaredReturn .type ++
    Outline.optional "declaration" f.declaration fun node => .handle (.node node))

/-- What is shown of the detail of a type variable. -/
def TypeVarDetail.outline (v : TypeVarDetail) : Outline :=
  .record ([("name", .text v.name), ("constraints", .types v.constraints)] ++
    Outline.optional "boundType" v.bound .type ++ [("variance", .text (label v.variance))])

/-- The types of a store together with the tree that their definitions are in. -/
structure TypeGraph where
  /-- The types. -/
  store : TypeStore
  /-- The tree. -/
  arena : Arena
  /-- The lines of the text. -/
  lines : LineMap

namespace TypeGraph

/-- What is shown behind a handle; nothing stands behind a handle that is not in use. -/
def outline? (g : TypeGraph) : Handle → Option Outline
  | .type id => (g.store.get? id).map (·.outline)
  | .classDetail id => (g.store.class? id).map (·.outline)
  | .functionDetail id => (g.store.function? id).map (·.outline)
  | .typeVarDetail id => (g.store.typeVar? id).map (·.outline)
  | .node id => some (.text (linesText (g.arena.lineAt g.lines 0 id)))

/-- The mark of a type that has been shown before. -/
def mark? (g : TypeGraph) : Handle → Option String
  | .type id =>
    match g.store.shape? id with
    | some (.nominal detail _ _) => (g.store.class? detail).map fun c =>
      s!"<cycle> class '{c.fullName}' id:{c.sourceId}"
    | some (.function detail _ _) => (g.store.function? detail).map fun f =>
      s!"<cycle> function '{f.fullName}' parameter count:{f.parameters.length}"
    | some (.typeVar detail scope _) => (g.store.typeVar? detail).map fun v =>
      let place := scope.getD "N/A"
      s!"<cycle> {v.name} scope id:{place}"
    | _ => none
  | _ => none

/-- A walk through the graph, with the handles that have come up so far, the last first. -/
abbrev Walk (α : Type) := StateM (List Handle) α

mutual

/-- Shows an outline, given how handles are shown. -/
def renderOutline (handle : Handle → Walk (Option Json)) : Outline → Walk (Option Json)
  | .handle h => handle h
  | .leaf value => return some value
  | .list items => return some (.list (← renderItems handle items))
  | .record fields => return some (.record (← renderFields handle fields))

/-- Shows the items of a list; what is left out is shown as nothing. -/
def renderItems (handle : Handle → Walk (Option Json)) : List Outline → Walk (List Json)
  | [] => return []
  | item :: items => do
    let shown ← renderOutline handle item
    return shown.getD .null :: (← renderItems handle items)

/-- Shows the fields of a record, without those that are left out. -/
def renderFields (handle : Handle → Walk (Option Json)) :
    List (String × Outline) → Walk (List (String × Json))
  | [] => return []
  | (name, outline) :: fields => do
    match ← renderOutline handle outline with
    | some value => return (name, value) :: (← renderFields handle fields)
    | none => renderFields handle fields

end

/-- Shows what stands behind a handle, going through at most `fuel` handles on one way. -/
def renderHandle (g : TypeGraph) : (fuel : Nat) → Handle → Walk (Option Json)
  | 0, _ => return none
  | fuel + 1, h => do
    if (← get).contains h then return (g.mark? h).map Json.text
    modify (h :: ·)
    match g.outline? h with
    | none => return some .null
    | some outline => renderOutline (g.renderHandle fuel) outline

/-- The number of handles with parts, and a few more. Every handle on a way is shown once, so no way
is longer. -/
def handleLimit (g : TypeGraph) : Nat :=
  g.store.types.size + g.store.classes.size + g.store.functions.size + g.store.typeVars.size + 2

/-- The text of an outline, with all that is shown behind its handles. -/
def render (g : TypeGraph) (outline : Outline) : String :=
  let (shown, _) := (renderOutline (g.renderHandle g.handleLimit) outline).run []
  (shown.getD .null).pretty

/-- The text of a type. -/
def typeText (g : TypeGraph) (id : TypeId) : String := g.render (.type id)

/-- The text of what is known of a class definition: its class, and what its decorators make of
it. -/
def classText (g : TypeGraph) (defined decorated : TypeId) : String :=
  g.render (.record [("classType", .type defined), ("decoratedType", .type decorated)])

/-- The text of what is known of a function definition: its function, and what its decorators make
of it. -/
def functionText (g : TypeGraph) (defined decorated : TypeId) : String :=
  g.render (.record [("functionType", .type defined), ("decoratedType", .type decorated)])

end TypeGraph

end TypeProbe
