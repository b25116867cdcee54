import TypeProbe.Proofs.Types.Covering

/-!
# How stores come about

A store is private to its functions: it starts with the types without parts, and only calls of the
functions change it (`StoreCall`, `TypeStore.BuiltBy`). A call adds a type at the end or leaves the
types, except that a type may be changed in its place (`StoreCall.run_cases`), so types stay made of
what they are made of unless a change touches that (`shape?_run`).

Of every store that such calls have left (`BuiltBy.wellKept`), the first type is the one of a name
without a value, the type without values is in its place, and the plain types of values, each of
which is kept for its class, are that (`TypeStore.WellKept`).
-/

namespace TypeProbe

/-- A call of a function that makes one store out of another. -/
inductive StoreCall where
  | add (t : TypeRecord)
  | addClass (c : ClassDetail)
  | addFunction (f : FunctionDetail)
  | addTypeVar (v : TypeVarDetail)
  | classType (d : ClassId)
  | instanceOf (d : ClassId)
  | specializedClass (d : ClassId) (arguments : List TypeId)
  | specializedInstance (d : ClassId) (arguments : List TypeId)
  | literal (d : ClassId) (value : LiteralValue)
  | unionOf (ids : List TypeId)
  | modify (id : TypeId) (change : TypeRecord → TypeRecord)
  | modifyClass (d : ClassId) (change : ClassDetail → ClassDetail)
  | modifyFunction (d : FunctionId) (change : FunctionDetail → FunctionDetail)

namespace StoreCall

/-- The store after a call. -/
def run (s : TypeStore) : StoreCall → TypeStore
  | .add t => (s.add t).2
  | .addClass c => (s.addClass c).2
  | .addFunction f => (s.addFunction f).2
  | .addTypeVar v => (s.addTypeVar v).2
  | .classType d => (s.classType d).2
  | .instanceOf d => (s.instanceOf d).2
  | .specializedClass d arguments => (s.specializedClass d arguments).2
  | .specializedInstance d arguments => (s.specializedInstance d arguments).2
  | .literal d value => (s.literal d value).2
  | .unionOf ids => (s.unionOf ids).2
  | .modify id change => s.modify id change
  | .modifyClass d change => s.modifyClass d change
  | .modifyFunction d change => s.modifyFunction d change

/-- The type that a call makes if it makes one, unless it is a union. -/
def made? : StoreCall → Option TypeRecord
  | .add t => some t
  | .classType d => some ⟨TypeStore.classFlags, .nominal d none none⟩
  | .instanceOf d => some ⟨TypeStore.valueFlags, .nominal d none none⟩
  | .specializedClass d arguments => some ⟨TypeStore.classFlags, .nominal d (some arguments) none⟩
  | .specializedInstance d arguments =>
    some ⟨TypeStore.valueFlags, .nominal d (some arguments) none⟩
  | .literal d value => some ⟨TypeStore.valueFlags, .nominal d none (some value)⟩
  | _ => none

/-- A call that changes no type in its place, or does not change what the type is made of. -/
def LeavesShapes (s : TypeStore) : StoreCall → Prop
  | .modify id change => ∀ t, s.get? id = some t → (change t).shape = t.shape
  | _ => True

/-- A call leaves the types, or adds the one that it makes, unless it makes a union or changes a
type. -/
theorem run_cases (s : TypeStore) (call : StoreCall) :
    (call.run s).types = s.types ∨
      (∃ t, call.made? = some t ∧ (call.run s).types = (s.add t).2.types) ∨
      (∃ ids, call = .unionOf ids) ∨ ∃ id change, call = .modify id change := by
  cases call with
  | unionOf ids => exact .inr (.inr (.inl ⟨ids, rfl⟩))
  | modify id change => exact .inr (.inr (.inr ⟨id, change, rfl⟩))
  | classType d =>
    rw [run, TypeStore.classType]
    split
    · exact .inl rfl
    · exact .inr (.inl ⟨_, rfl, rfl⟩)
  | instanceOf d =>
    rw [run, TypeStore.instanceOf]
    split
    · exact .inl rfl
    · exact .inr (.inl ⟨_, rfl, rfl⟩)
  | add t => exact .inr (.inl ⟨_, rfl, rfl⟩)
  | specializedClass d arguments => exact .inr (.inl ⟨_, rfl, rfl⟩)
  | specializedInstance d arguments => exact .inr (.inl ⟨_, rfl, rfl⟩)
  | literal d value => exact .inr (.inl ⟨_, rfl, rfl⟩)
  | _ => exact .inl rfl

end StoreCall

namespace TypeStore

/-- A store that comes about by calls, each of which is allowed where it is made. -/
inductive BuiltBy (allowed : TypeStore → StoreCall → Prop) : TypeStore → Prop
  /-- The store to start with. -/
  | initial : BuiltBy allowed .initial
  /-- The store after one more call. -/
  | call {s : TypeStore} (h : BuiltBy allowed s) (call : StoreCall) (hcall : allowed s call) :
    BuiltBy allowed (call.run s)

variable {s s' : TypeStore} {id : TypeId}

/-- One function on stores after another. -/
theorem bind_apply {α β : Type} (work : StateM TypeStore α) (next : α → StateM TypeStore β)
    (s : TypeStore) : (work >>= next) s = next (work s).1 (work s).2 := rfl

/-- A function for each element of a list makes nothing if it makes nothing for any of them. -/
theorem mapM_eq_of_forall₂ {α β : Type} {work : α → StateM TypeStore β} {as : List α} {bs : List β}
    (h : List.Forall₂ (fun a b => work a s = (b, s)) as bs) : as.mapM work s = (bs, s) := by
  induction h with
  | nil => rfl
  | cons ha _ ih =>
    rw [List.mapM_cons, bind_apply, ha, bind_apply, ih]
    rfl

/-- Whether types are there can be computed. -/
theorem hasAll_of_all {ids : List TypeId} (h : (ids.all fun id => id.index < s.types.size) = true) :
    s.HasAll ids := by
  intro id hid
  have hlt : id.index < s.types.size := of_decide_eq_true (List.all_eq_true.1 h id hid)
  exact hlt

/-- A type that has been added is what it was added as. -/
theorem get?_added (t : TypeRecord) : (s.add t).2.get? (s.add t).1 = some t :=
  Array.getElem?_push_size

/-- A type that is changed is made of what the change gives it. -/
theorem shape?_modify (change : TypeRecord → TypeRecord) (id' : TypeId) :
    (s.modify id change).shape? id' =
      (s.get? id').map fun t => if id.index = id'.index then (change t).shape else t.shape := by
  have hget : (s.modify id change).get? id' =
      if id.index = id'.index then (s.get? id').map change else s.get? id' :=
    Array.getElem?_modify
  rw [shape?, hget]
  split
  · exact Option.map_map _ _ _
  · rfl

/-- Types stay made of the same if a change of one leaves what that is made of. -/
theorem shape?_modify_of_leaves {change : TypeRecord → TypeRecord}
    (hchange : ∀ t, s.get? id = some t → (change t).shape = t.shape) (id' : TypeId) :
    (s.modify id change).shape? id' = s.shape? id' := by
  rw [shape?_modify, shape?]
  refine Option.map_congr fun t ht => ?_
  split
  · rename_i heq
    obtain rfl : id = id' := congrArg TypeId.mk heq
    exact hchange t ht
  · rfl

/-- What types are made of depends on the types only. -/
theorem shape?_of_types (h : s'.types = s.types) (id : TypeId) : s'.shape? id = s.shape? id := by
  rw [shape?, get?, h]
  rfl

/-- What types are made of stays after a call that does not change it. -/
theorem shape?_run {call : StoreCall} (hcall : call.LeavesShapes s) {shape : TypeShape}
    (h : s.shape? id = some shape) : (call.run s).shape? id = some shape := by
  obtain hsame | ⟨t, -, hadded⟩ | ⟨ids, rfl⟩ | ⟨id', change, rfl⟩ := call.run_cases s
  · exact (shape?_of_types hsame id).trans h
  · exact (shape?_of_types hadded id).trans (Within.shape? (keeping_add t s).get? h)
  · exact Within.shape? (keeping_unionOf ids s).get? h
  · exact (shape?_modify_of_leaves hcall id).trans h

/-- A store comes about in a wider way, too. -/
theorem BuiltBy.mono {allowed allowed' : TypeStore → StoreCall → Prop} (h : BuiltBy allowed s)
    (hwider : ∀ s call, allowed s call → allowed' s call) : BuiltBy allowed' s := by
  induction h with
  | initial => exact .initial
  | call _ call hcall ih => exact ih.call call (hwider _ call hcall)

/-! ## What calls keep of every store -/

/-- A store in which the types that others rely on are in their places: the first type is that of a
name without a value, the type without values is there, and the plain types of values are that. -/
structure WellKept (s : TypeStore) : Prop where
  /-- The first type. -/
  unbound : s.shape? .unbound = some .unbound
  /-- The type without values. -/
  never : s.shape? .never = some .never
  /-- The plain types of values. -/
  instances : ∀ d id, (d, id) ∈ s.instances → s.shape? id = some (.nominal d none none)

namespace WellKept

/-- A store is well kept if it has the shapes and the plain types of values of one that is. -/
theorem of_shapes (h : s.WellKept)
    (hshape : ∀ {id shape}, s.shape? id = some shape → s'.shape? id = some shape)
    (hinstances : s'.instances = s.instances) : s'.WellKept where
  unbound := hshape h.unbound
  never := hshape h.never
  instances d id hid := hshape (h.instances d id (hinstances ▸ hid))

/-- Making the plain type of the values of a class keeps a store well. -/
theorem instanceOf (h : s.WellKept) (d : ClassId) : (s.instanceOf d).2.WellKept := by
  unfold TypeStore.instanceOf
  split
  · exact h
  · have hwithin : s.Within (s.addValue (.nominal d none none)).2 := (keeping_add _ s).get?
    refine ⟨hwithin.shape? h.unbound, hwithin.shape? h.never, fun d' id hid => ?_⟩
    rcases List.mem_cons.1 hid with heq | hold
    · cases heq
      exact shape?_of_get? (get?_added ⟨valueFlags, .nominal d none none⟩)
    · exact hwithin.shape? (h.instances d' id hold)

end WellKept

/-- Making a union keeps the plain types of values. -/
theorem instances_unionOf (s : TypeStore) (ids : List TypeId) :
    (s.unionOf ids).2.instances = s.instances := by
  unfold unionOf
  split <;> rfl

/-- Making a union keeps a store well. -/
theorem WellKept.unionOf (h : s.WellKept) (ids : List TypeId) : (s.unionOf ids).2.WellKept :=
  h.of_shapes (Within.shape? (keeping_unionOf ids s).get?) (instances_unionOf s ids)

/-- Every store that calls have left is well kept, if none has changed what a type is made of. -/
theorem BuiltBy.wellKept (h : BuiltBy StoreCall.LeavesShapes s) : s.WellKept := by
  induction h with
  | initial => exact ⟨rfl, rfl, nofun⟩
  | @call s _ call hcall ih =>
    have hshape {id : TypeId} {shape : TypeShape} (h : s.shape? id = some shape) :
        (call.run s).shape? id = some shape := shape?_run hcall h
    cases call with
    | instanceOf d => exact ih.instanceOf d
    | classType d =>
      refine ih.of_shapes hshape ?_
      show (s.classType d).2.instances = s.instances
      unfold classType
      split <;> rfl
    | unionOf ids => exact ih.unionOf ids
    | _ => exact ih.of_shapes hshape rfl

end TypeStore

end TypeProbe
