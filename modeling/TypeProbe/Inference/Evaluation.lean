import TypeProbe.Inference.Guard
import TypeProbe.Inference.Program
import TypeProbe.Types.Substitution
import TypeProbe.Types.Widening

/-!
# Evaluation

Types are worked out on demand and kept: `Memory` is the store of types together with every answer
that has been given. The questions through which the rules of evaluation lead to one another are
listed in `Query`. An `Evaluation` reads and changes the memory and asks questions; it does not say
how they are answered, so that each rule, in the modules beside this one, can be looked at by
itself. The recursion is tied once, where the rules are assembled. Guards cut off questions that
lead back to themselves: these get a provisional answer that is not kept.
-/

namespace TypeProbe

/-- The types of a definition. -/
structure DefinitionTypes where
  /-- The type of what it defines. -/
  defined : TypeId
  /-- What its decorators make of it. -/
  decorated : TypeId
deriving DecidableEq, Inhabited, Repr

/-- The types that exist and the answers that have been given. -/
structure Memory where
  /-- The types. -/
  store : TypeStore
  /-- The types of nodes. -/
  nodeTypes : List (NodeId × TypeId)
  /-- The types that declarations give, by their nodes. -/
  declarationTypes : List (NodeId × TypeId)
  /-- The types of class definitions, the newest first. -/
  classes : List (NodeId × DefinitionTypes)
  /-- The types of function definitions, the newest first. -/
  functions : List (NodeId × DefinitionTypes)
  /-- The types that functions without a given one return. -/
  returnTypes : List (FunctionId × TypeId)
  /-- Type variables as they are used in a definition, which is named. -/
  scopedTypeVars : List ((TypeVarId × String) × TypeId)
  /-- The functions that properties call when they are read. -/
  getters : List (TypeId × FunctionId)
  /-- The nodes whose types are being worked out. -/
  nodeGuard : Guard NodeId
  /-- The nodes of declarations whose types are being worked out. -/
  declarationGuard : Guard NodeId
  /-- The functions whose returned types are being worked out. -/
  returnGuard : Guard FunctionId

/-- The memory before the first question. -/
def Memory.ofStore (store : TypeStore) : Memory where
  store := store
  nodeTypes := []
  declarationTypes := []
  classes := []
  functions := []
  returnTypes := []
  scopedTypeVars := []
  getters := []
  nodeGuard := Guard.ofLimit Guard.evaluationLimit
  declarationGuard := Guard.ofLimit Guard.evaluationLimit
  returnGuard := Guard.ofLimit Guard.evaluationLimit

/-- What the rules of evaluation of one another. -/
inductive Query where
  /-- The type of a node that has a value. -/
  | node (node : NodeId)
  /-- The types of a class definition. -/
  | classDef (node : NodeId)
  /-- The types of a function definition. -/
  | function (node : NodeId)
  /-- The type that a declaration gives to its name. -/
  | declaration (d : Declaration)
  /-- The type that a type hint denotes. -/
  | hint (node : NodeId)
  /-- The type of a call with positional arguments. -/
  | call (callee : TypeId) (arguments : List TypeId)
  /-- The type of a member, bound to the object it is taken from. -/
  | member (object : TypeId) (name : String)
  /-- The type that a function without a given one returns. -/
  | returned (detail : FunctionId)
deriving DecidableEq, Inhabited, Repr

/-- What a question is answered with; some questions make no sense of some nodes. -/
@[reducible] def Query.Answer : Query → Type
  | .node _ | .member _ _ => Option TypeId
  | .classDef _ | .function _ => Option DefinitionTypes
  | .declaration _ | .hint _ | .call _ _ | .returned _ => TypeId

/-- A computation that asks questions: it has come to its end, or it asks a question with the memory
as it stands and goes on with the answer and the memory that it finds then. -/
inductive Dialogue (β : Type) where
  | done (b : β)
  | ask (q : Query) (m : Memory) (next : q.Answer → Memory → Dialogue β)

namespace Dialogue

variable {α β : Type}

/-- Goes on after the end. -/
def bind : Dialogue α → (α → Dialogue β) → Dialogue β
  | .done a, f => f a
  | .ask q m next, f => .ask q m fun a m => (next a m).bind f

instance : Monad Dialogue where
  pure := .done
  bind := bind

/-- The result with the given answers, if they are not missing. -/
def follow (answer : (q : Query) → Memory → Option (q.Answer × Memory)) : Dialogue β → Option β
  | .done b => some b
  | .ask q m next => do
    let (a, m) ← answer q m
    (next a m).follow answer

end Dialogue

/-- A computation on the memory that asks questions. -/
abbrev Evaluation (α : Type) := StateT Memory Dialogue α

namespace Evaluation

/-- The answer to a question. -/
def ask (q : Query) : Evaluation q.Answer := fun m => .ask q m fun a m => .done (a, m)

/-- The types that exist now. -/
def store : Evaluation TypeStore := return (← get).store

/-- Works on the types. -/
def onStore {α : Type} (work : TypeStore → α × TypeStore) : Evaluation α :=
  modifyGet fun m => let (a, store) := work m.store; (a, { m with store })

/-- Changes types or details that exist. -/
def edit (change : TypeStore → TypeStore) : Evaluation Unit :=
  modify fun m => { m with store := change m.store }

/-- The place of a guard in the memory. -/
structure GuardSlot (κ : Type) where
  /-- The guard. -/
  guard : Memory → Guard κ
  /-- Puts a guard in its place. -/
  put : Guard κ → Memory → Memory

/-- The guard on nodes. -/
def nodeSlot : GuardSlot NodeId := ⟨(·.nodeGuard), fun g m => { m with nodeGuard := g }⟩

/-- The guard on declarations. -/
def declarationSlot : GuardSlot NodeId :=
  ⟨(·.declarationGuard), fun g m => { m with declarationGuard := g }⟩

/-- The guard on returned types. -/
def returnSlot : GuardSlot FunctionId := ⟨(·.returnGuard), fun g m => { m with returnGuard := g }⟩

/-- Does guarded work on a key and keeps its result. If the work may not begin, the provisional
answer is given and nothing is kept. -/
def guarded {κ α : Type} [DecidableEq κ] (slot : GuardSlot κ) (key : κ) (provisional : α)
    (work : Evaluation α) (keep : α → Memory → Memory) : Evaluation α := do
  let m ← get
  match (slot.guard m).enter key with
  | (.entered, g) =>
    set (slot.put g m)
    let a ← work
    modify fun m => keep a (slot.put ((slot.guard m).leave key) m)
    return a
  | _ => return provisional

/-- The type of a node that should have a value; nothing is known of one that has none. -/
def typeOf (node : NodeId) : Evaluation TypeId := do
  let type? ← ask (.node node)
  return type?.getD .unknown

/-- The type of a call of a member, if there is such a member. -/
def callMember (object : TypeId) (name : String) (arguments : List TypeId) :
    Evaluation (Option TypeId) := do
  match ← ask (.member object name) with
  | some member => return some (← ask (.call member arguments))
  | none => return none

/-- The type of a call of a member; nothing is known if there is no such member. -/
def callMemberD (object : TypeId) (name : String) (arguments : List TypeId) :
    Evaluation TypeId := do
  return (← callMember object name arguments).getD .unknown

end Evaluation

end TypeProbe
