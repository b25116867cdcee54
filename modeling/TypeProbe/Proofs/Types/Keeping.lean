import TypeProbe.Inference.Calls
import TypeProbe.Proofs.Flags

/-!
# What the functions on stores leave as it is

The functions that make types add to the store, and change no class and no function in it
(`TypeStore.Spares`): types stay, and so do classes and functions. Where the members of a class are
completed, nothing changes that the evaluation of its own definition has set (`TypeStore.Keeps`,
`ClassDetail.core`). This needs no assumption on the store, unlike that stores stay sound.
-/

namespace TypeProbe

/-- What the evaluation of a class definition sets once and for all. -/
structure ClassCore where
  /-- The node that defines it. -/
  declaration : Option NodeId
  /-- Whether its evaluation is going on. -/
  isPartial : Bool
  /-- The classes it is derived from. -/
  bases : List TypeId
  /-- The class and its ancestors. -/
  mro : List TypeId
  /-- The class of the class. -/
  effectiveMetaclass : Option TypeId

/-- What is set of a function once and for all when it is made. -/
structure FunctionCore where
  /-- The node that defines it. -/
  declaration : Option NodeId
  /-- Whether it is one of several overloads. -/
  isOverload : Bool

/-- What the evaluation of its definition sets of a class once and for all. -/
def ClassDetail.core (c : ClassDetail) : ClassCore where
  declaration := c.declaration
  isPartial := c.flags.has .partiallyEvaluated
  bases := c.bases
  mro := c.mro
  effectiveMetaclass := c.effectiveMetaclass

/-- What is set of a function once and for all when it is made. -/
def FunctionDetail.core (f : FunctionDetail) : FunctionCore where
  declaration := f.declaration
  isOverload := f.flags.has .overloaded

namespace TypeStore

/-- A store in which the types of another one have stayed, with the same classes and functions as
far as their own definitions set them. -/
structure Keeps (s s' : TypeStore) : Prop where
  /-- Types stay. -/
  get? : ∀ id t, s.get? id = some t → s'.get? id = some t
  /-- The plain types of classes that are new are plain types of classes. -/
  classTypes : ∀ e ∈ s'.classTypes,
    e ∈ s.classTypes ∨ s'.get? e.2 = some ⟨classFlags, .nominal e.1 none none⟩
  /-- There are the same classes. -/
  classes : s'.classes.map ClassDetail.core = s.classes.map ClassDetail.core
  /-- There are the same functions. -/
  functions : s'.functions.map FunctionDetail.core = s.functions.map FunctionDetail.core

namespace Keeps

variable {s s' s'' : TypeStore}

/-- A store keeps its own. -/
theorem refl (s : TypeStore) : s.Keeps s := ⟨fun _ _ h => h, fun _ h => .inl h, rfl, rfl⟩

/-- What is kept twice is kept. -/
theorem trans (h : s.Keeps s') (h' : s'.Keeps s'') : s.Keeps s'' where
  get? id t hid := h'.get? id t (h.get? id t hid)
  classTypes e he := by
    rcases h'.classTypes e he with hold | hnew
    · exact (h.classTypes e hold).imp_right fun hget => h'.get? _ _ hget
    · exact .inr hnew
  classes := h'.classes.trans h.classes
  functions := h'.functions.trans h.functions

/-- A class stays what its definition has set. -/
theorem core_class? (h : s.Keeps s') (d : ClassId) :
    (s'.class? d).map ClassDetail.core = (s.class? d).map ClassDetail.core := by
  rw [class?, class?, ← Array.getElem?_map, ← Array.getElem?_map, h.classes]

end Keeps

/-- A store in which another one has been kept, with all classes as they were. -/
structure Spares (s s' : TypeStore) : Prop extends s.Keeps s' where
  /-- The classes are the same. -/
  spared : s'.classes = s.classes

namespace Spares

variable {s s' s'' : TypeStore}

/-- A store spares its own. -/
theorem refl (s : TypeStore) : s.Spares s := ⟨.refl s, rfl⟩

/-- What is spared twice is spared. -/
theorem trans (h : s.Spares s') (h' : s'.Spares s'') : s.Spares s'' :=
  ⟨h.toKeeps.trans h'.toKeeps, h'.spared.trans h.spared⟩

end Spares

/-- Changing an element changes nothing that the change leaves. -/
theorem map_modify {α β : Type} {f : α → β} {change : α → α} (h : ∀ a, f (change a) = f a)
    (as : Array α) (i : Nat) : (as.modify i change).map f = as.map f := by
  refine Array.ext_getElem? fun j => ?_
  rw [Array.getElem?_map, Array.getElem?_map, Array.getElem?_modify]
  split
  · rw [Option.map_map, show f ∘ change = f from funext h]
  · rfl

/-- Changing a class keeps all classes if the change leaves what its definition has set. -/
theorem keeps_modifyClass (s : TypeStore) (d : ClassId) {change : ClassDetail → ClassDetail}
    (h : ∀ c, (change c).core = c.core) : s.Keeps (s.modifyClass d change) :=
  { Keeps.refl s with classes := map_modify h s.classes d.index }

/-- Changing a function keeps all functions if the change leaves what is set of it. -/
theorem spares_modifyFunction (s : TypeStore) (d : FunctionId)
    {change : FunctionDetail → FunctionDetail}
    (h : ∀ f, (change f).core = f.core) : s.Spares (s.modifyFunction d change) :=
  { Spares.refl s with functions := map_modify h s.functions d.index }

/-- A function on stores that keeps what is there and spares the classes. -/
def Keeping {α : Type} (work : TypeStore → α × TypeStore) : Prop :=
  ∀ s : TypeStore, s.Spares (work s).2

namespace Keeping

variable {α β : Type}

/-- What is given at once leaves the store. -/
theorem ret (a : α) : Keeping (pure a : StateM TypeStore α) := fun s => .refl s

/-- One function after another. -/
theorem bind {work : StateM TypeStore α} {next : α → StateM TypeStore β} (h : Keeping work)
    (hnext : ∀ a, Keeping (next a)) : Keeping (work >>= next) :=
  fun s => (h s).trans (hnext _ _)

/-- The store may be looked at. -/
theorem get {next : TypeStore → StateM TypeStore β} (h : ∀ s, Keeping (next s)) :
    Keeping (MonadState.get >>= next) := fun s => h s s

/-- A function for each element of a list. -/
theorem mapM {work : α → StateM TypeStore β} (h : ∀ a, Keeping (work a)) (as : List α) :
    Keeping (as.mapM work) := by
  induction as with
  | nil => exact .ret []
  | cons a as ih =>
    rw [List.mapM_cons]
    exact (h a).bind fun b => ih.bind fun bs => .ret (b :: bs)

end Keeping

/-! ## Making types -/

/-- Adding a type keeps what is there. -/
theorem keeping_add (t : TypeRecord) : Keeping (·.add t) := by
  refine fun s => ⟨⟨fun id t' h => ?_, fun _ he => .inl he, rfl, rfl⟩, rfl⟩
  have hid : id.index < s.types.size := (Array.getElem?_eq_some_iff.1 h).1
  exact (Array.getElem?_push_lt hid).trans ((Array.getElem?_eq_getElem hid).symm.trans h)

/-- Adding a type variable keeps what is there. -/
theorem keeping_addTypeVar (v : TypeVarDetail) : Keeping (·.addTypeVar v) := fun s =>
  { Spares.refl s with }

/-- The plain type of a class is found or made. -/
theorem keeping_classType (d : ClassId) : Keeping (·.classType d) := by
  intro s
  show s.Spares (s.classType d).2
  unfold classType
  split
  · exact .refl s
  · have hadd := keeping_add ⟨classFlags, .nominal d none none⟩ s
    refine { hadd with classTypes := fun e he => ?_ }
    rcases List.mem_cons.1 he with rfl | hold
    · exact .inr Array.getElem?_push_size
    · exact .inl hold

/-- The plain type of the values of a class is found or made. -/
theorem keeping_instanceOf (d : ClassId) : Keeping (·.instanceOf d) := by
  intro s
  show s.Spares (s.instanceOf d).2
  unfold instanceOf
  split
  · exact .refl s
  · exact { keeping_add ⟨valueFlags, .nominal d none none⟩ s with }

/-- A union is found or made. -/
theorem keeping_unionOf (ids : List TypeId) : Keeping (·.unionOf ids) := by
  intro s
  have hfound : s.Spares (s.lookUpAll ids) := { Spares.refl s with }
  show s.Spares (s.unionOf ids).2
  unfold unionOf
  split
  · exact hfound
  · exact hfound
  · exact hfound.trans (keeping_add _ _)

/-- Forgetting literal values keeps what is there. -/
theorem keeping_widenAt (fuel : Nat) (id : TypeId) : Keeping (widenAt fuel id) := by
  induction fuel generalizing id with
  | zero => exact .ret id
  | succ fuel ih =>
    refine .get fun s => ?_
    split
    · exact keeping_instanceOf _
    · refine (Keeping.mapM ih _).bind fun widened => ?_
      split
      · exact .ret id
      · exact keeping_unionOf widened
    · exact .ret id

/-- Replacing types keeps what is there. -/
theorem keeping_substituteAt (solutions : Solutions) (fuel : Nat) (id : TypeId) :
    Keeping (substituteAt solutions fuel id) := by
  induction fuel generalizing id with
  | zero => exact .ret id
  | succ fuel ih =>
    unfold substituteAt
    split
    · exact .ret _
    · refine .get fun s => ?_
      split
      · refine (Keeping.mapM ih _).bind fun replaced => ?_
        split
        · exact .ret id
        · split
          · exact keeping_add _
          · exact keeping_add _
      · refine (Keeping.mapM ih _).bind fun replaced => ?_
        split
        · exact .ret id
        · exact keeping_unionOf replaced
      · exact .ret id

/-! ## Values -/

section Values

open Values

variable (b : Builtins)

/-- The union of some types is found or made. -/
theorem keeping_unionOrUnknown (types : List TypeId) : Keeping (unionOrUnknown types) := by
  unfold unionOrUnknown
  split
  · exact .ret _
  · exact keeping_unionOf types

/-- The type of the items of a value is found or made. -/
theorem keeping_itemsOf (id : TypeId) : Keeping (itemsOf b id) := by
  refine .get fun s => ?_
  dsimp only
  split
  · exact .ret _
  · split
    · exact keeping_instanceOf _
    · split
      · exact keeping_instanceOf _
      · split
        · exact keeping_unionOrUnknown _
        · split
          · exact .ret _
          · exact .ret _

/-- The type of the items of a value is found or made. -/
theorem keeping_iteratedAt (fuel : Nat) (id : TypeId) : Keeping (iteratedAt b fuel id) := by
  induction fuel generalizing id with
  | zero => exact .ret _
  | succ fuel ih =>
    refine .get fun s => ?_
    split
    · exact (Keeping.mapM ih _).bind fun types => keeping_unionOf types
    · exact keeping_itemsOf b id

/-- The type of what is unpacked is found or made. -/
theorem keeping_unpacked (id : TypeId) (place : Nat) : Keeping (unpacked b id place) := by
  refine .get fun s => ?_
  split
  · split
    · exact .ret _
    · exact keeping_iteratedAt b _ id
  · exact .ret _

/-- The type of what is caught is found or made. -/
theorem keeping_caughtAt (fuel : Nat) (id : TypeId) : Keeping (caughtAt b fuel id) := by
  induction fuel generalizing id with
  | zero => exact .ret _
  | succ fuel ih =>
    refine .get fun s => ?_
    split
    · exact .ret _
    · split
      · exact keeping_instanceOf _
      · split
        · exact (Keeping.mapM ih _).bind fun types => keeping_unionOf types
        · exact .ret _

/-- The type of a number is found or made. -/
theorem keeping_number (n : NumberLiteral) : Keeping (number b n) := by
  unfold number
  intro s
  split
  · exact keeping_instanceOf _ s
  · split
    · exact keeping_add _ s
    · exact keeping_instanceOf _ s

/-- The type of a keyword is found or made. -/
theorem keeping_constant (keyword : Keyword) : Keeping (constant b keyword) := by
  intro s
  unfold constant
  split
  · exact keeping_add _ s
  · exact keeping_add _ s
  · exact .refl s
  · exact keeping_instanceOf _ s
  · exact .refl s

/-- The type of an operation on numbers is found or made. -/
theorem keeping_arithmetic (op : Operator) (rank : Nat) (left right : Option LiteralValue) :
    Keeping (arithmetic b op rank left right) := by
  intro s
  unfold arithmetic
  split
  · dsimp only
    split
    · exact keeping_add _ s
    · exact keeping_instanceOf _ s
  · split
    · exact .refl s
    · exact keeping_instanceOf _ s

/-- Solving type variables keeps what is there. -/
theorem keeping_solve (parameters : List Parameter) (arguments : List TypeId)
    (solutions : Solutions) : Keeping (Calls.solve parameters arguments solutions) := by
  induction parameters generalizing arguments solutions with
  | nil => exact .ret solutions
  | cons parameter parameters ih =>
    cases arguments with
    | nil => exact .ret solutions
    | cons argument arguments =>
      unfold Calls.solve
      split
      · exact .ret solutions
      · refine .get fun s => ?_
        split
        · exact (keeping_widenAt _ argument).bind fun widened => ih arguments _
        · exact ih arguments solutions

end Values

end TypeStore

end TypeProbe
