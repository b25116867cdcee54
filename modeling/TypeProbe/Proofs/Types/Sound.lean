import TypeProbe.Types.Linearization
import TypeProbe.Types.Store

/-!
# Stores without loose ends

A store is sound (`TypeStore.Sound`) if every handle in it is the handle of something in it, and the
parts of a type were there before the type. A store that grows (`TypeStore.Grows`) keeps its types
and forgets no handle. The functions on stores, each of which `Works`, make sound stores out of
sound stores, and these have grown.
-/

namespace TypeProbe

/-! ## Handles -/

/-- The handle of a type of the store. -/
def TypeId.In (id : TypeId) (s : TypeStore) : Prop := id.index < s.types.size

/-- The handle of a class of the store. -/
def ClassId.In (id : ClassId) (s : TypeStore) : Prop := id.index < s.classes.size

/-- The handle of a function of the store. -/
def FunctionId.In (id : FunctionId) (s : TypeStore) : Prop := id.index < s.functions.size

/-- The handle of a type variable of the store. -/
def TypeVarId.In (id : TypeVarId) (s : TypeStore) : Prop := id.index < s.typeVars.size

/-- The types that a type is made of. -/
def TypeShape.parts : TypeShape → List TypeId
  | .function _ receiver openParameters =>
    receiver.toList ++ (openParameters.getD []).map (·.type)
  | .overloaded overloads => overloads
  | .nominal _ arguments _ => arguments.getD []
  | .module _ members => members.values
  | .union members => members
  | .unbound | .unknown _ | .any | .noneValue | .never | .typeVar .. => []

/-- The detail that a type refers to is one of the store. -/
def TypeShape.DetailIn (s : TypeStore) : TypeShape → Prop
  | .function detail _ _ => detail.In s
  | .nominal detail _ _ => detail.In s
  | .typeVar detail _ _ => detail.In s
  | .unbound | .unknown _ | .any | .noneValue | .never | .overloaded _ | .module .. | .union _ =>
    True

/-- The types that a class refers to. -/
def ClassDetail.types (c : ClassDetail) : List TypeId :=
  c.bases ++ c.mro ++ c.declaredMetaclass.toList ++ c.effectiveMetaclass.toList ++
    c.fields.values ++ c.typeParameters

/-- The types that a function refers to. -/
def FunctionDetail.types (f : FunctionDetail) : List TypeId :=
  f.parameters.map (·.type) ++ f.declaredReturn.toList

/-- The types that a type variable refers to. -/
def TypeVarDetail.types (v : TypeVarDetail) : List TypeId := v.constraints ++ v.bound.toList

namespace TypeStore

/-- All of the handles are handles of types of the store. -/
def HasAll (s : TypeStore) (ids : List TypeId) : Prop := ∀ id ∈ ids, id.In s

/-- A store in which every handle is the handle of something, and in which the parts of a type were
there before it. -/
structure Sound (s : TypeStore) : Prop where
  /-- The types without parts are there. -/
  basic : 6 ≤ s.types.size
  /-- The parts of a type were there before it. -/
  parts : ∀ id shape, s.shape? id = some shape → ∀ t ∈ shape.parts, t.index < id.index
  /-- The details that types refer to are there. -/
  detail : ∀ id shape, s.shape? id = some shape → shape.DetailIn s
  /-- What a type variable refers to was there before its types. -/
  bounds : ∀ id d scope name v, s.shape? id = some (.typeVar d scope name) →
    s.typeVar? d = some v → ∀ t ∈ v.types, t.index < id.index
  /-- The types that classes refer to are there. -/
  classes : ∀ d c, s.class? d = some c → s.HasAll c.types
  /-- The types that functions refer to are there. -/
  functions : ∀ d f, s.function? d = some f → s.HasAll f.types
  /-- The types that type variables refer to are there. -/
  typeVars : ∀ d v, s.typeVar? d = some v → s.HasAll v.types
  /-- The plain types of classes are that. -/
  classTypes : ∀ d id, (d, id) ∈ s.classTypes →
    s.get? id = some ⟨classFlags, .nominal d none none⟩
  /-- The plain types of values are that. -/
  instances : ∀ d id, (d, id) ∈ s.instances → s.get? id = some ⟨valueFlags, .nominal d none none⟩
  /-- No union has been asked for of a handle that no type has. -/
  overran : s.overran = false

/-- A store that comes from another one by adding to it, and by changes of details. -/
structure Grows (s s' : TypeStore) : Prop where
  /-- The types stay. -/
  get? : ∀ id t, s.get? id = some t → s'.get? id = some t
  /-- The types remain at least as many. -/
  types : s.types.size ≤ s'.types.size
  /-- The classes remain at least as many. -/
  classes : s.classes.size ≤ s'.classes.size
  /-- The functions remain at least as many. -/
  functions : s.functions.size ≤ s'.functions.size
  /-- The type variables remain at least as many. -/
  typeVars : s.typeVars.size ≤ s'.typeVars.size

variable {s s' s'' : TypeStore} {id : TypeId} {ids ids' : List TypeId}

@[simp] theorem hasAll_nil : s.HasAll [] := nofun

@[simp] theorem hasAll_cons : s.HasAll (id :: ids) ↔ id.In s ∧ s.HasAll ids := List.forall_mem_cons

@[simp] theorem hasAll_append : s.HasAll (ids ++ ids') ↔ s.HasAll ids ∧ s.HasAll ids' :=
  List.forall_mem_append

/-- A handle of the store as a type that may be missing. -/
theorem forall_mem_some (h : id.In s) : ∀ t ∈ some id, t.In s := by
  rintro _ ⟨⟩
  exact h

/-- A type that is there has a handle of the store. -/
theorem in_of_get? {t : TypeRecord} (h : s.get? id = some t) : id.In s :=
  (Array.getElem?_eq_some_iff.1 h).1

/-- A type that is there has a handle of the store. -/
theorem in_of_shape? {shape : TypeShape} (h : s.shape? id = some shape) : id.In s := by
  obtain ⟨t, ht, -⟩ := Option.map_eq_some_iff.1 h
  exact in_of_get? ht

/-- A handle of the store has a type. -/
theorem isNone_get?_of_in (h : id.In s) : (s.get? id).isNone = false := by
  rw [get?, Array.getElem?_eq_getElem h]
  rfl

/-- Looking up types that are there leaves the store. -/
theorem lookUpAll_of_hasAll (h : s.HasAll ids) : s.lookUpAll ids = s := by
  have hany : (ids.any fun id => (s.get? id).isNone) = false :=
    List.any_eq_false.2 fun id hid => by simp [isNone_get?_of_in (h id hid)]
  rw [lookUpAll, hany, Bool.or_false]

/-- A type that is there is made of something. -/
theorem shape?_of_get? {t : TypeRecord} (h : s.get? id = some t) : s.shape? id = some t.shape :=
  Option.map_eq_some_iff.2 ⟨t, h, rfl⟩

/-! ## Growing stores -/

namespace Grows

/-- A store has grown from itself. -/
theorem refl (s : TypeStore) : s.Grows s :=
  ⟨fun _ _ h => h, Nat.le_refl _, Nat.le_refl _, Nat.le_refl _, Nat.le_refl _⟩

/-- What has grown twice has grown. -/
theorem trans (h : s.Grows s') (h' : s'.Grows s'') : s.Grows s'' :=
  ⟨fun id t ht => h'.get? id t (h.get? id t ht), Nat.le_trans h.types h'.types,
    Nat.le_trans h.classes h'.classes, Nat.le_trans h.functions h'.functions,
    Nat.le_trans h.typeVars h'.typeVars⟩

end Grows

end TypeStore

section Mono

variable {s s' : TypeStore}

/-- Handles of types stay handles. -/
theorem TypeId.In.mono {id : TypeId} (hid : id.In s) (h : s.Grows s') : id.In s' :=
  Nat.lt_of_lt_of_le hid h.types

/-- Handles of classes stay handles. -/
theorem ClassId.In.mono {id : ClassId} (hid : id.In s) (h : s.Grows s') : id.In s' :=
  Nat.lt_of_lt_of_le hid h.classes

/-- Handles of functions stay handles. -/
theorem FunctionId.In.mono {id : FunctionId} (hid : id.In s) (h : s.Grows s') : id.In s' :=
  Nat.lt_of_lt_of_le hid h.functions

/-- Handles of type variables stay handles. -/
theorem TypeVarId.In.mono {id : TypeVarId} (hid : id.In s) (h : s.Grows s') : id.In s' :=
  Nat.lt_of_lt_of_le hid h.typeVars

/-- Handles of types stay handles. -/
theorem TypeStore.HasAll.mono {ids : List TypeId} (hids : s.HasAll ids) (h : s.Grows s') :
    s'.HasAll ids := fun t ht => (hids t ht).mono h

/-- The details that types refer to stay there. -/
theorem TypeShape.DetailIn.mono {shape : TypeShape} (hshape : shape.DetailIn s) (h : s.Grows s') :
    shape.DetailIn s' := by
  cases shape with
  | function detail _ _ => exact FunctionId.In.mono hshape h
  | nominal detail _ _ => exact ClassId.In.mono hshape h
  | typeVar detail _ _ => exact TypeVarId.In.mono hshape h
  | _ => trivial

end Mono

namespace TypeStore

variable {s : TypeStore} {id : TypeId}

/-! ## What is read from a sound store -/

namespace Sound

/-- The types without parts have handles of the store. -/
theorem basic_in (h : s.Sound) (hid : id.index < 6) : id.In s := Nat.lt_of_lt_of_le hid h.basic

/-- The parts of a type have handles of the store. -/
theorem hasAll_parts {shape : TypeShape} (h : s.Sound) (hshape : s.shape? id = some shape) :
    s.HasAll shape.parts :=
  fun t ht => Nat.lt_trans (h.parts id shape hshape t ht) (in_of_shape? hshape)

/-- The type arguments of a type have handles of the store. -/
theorem hasAll_argumentsOf {arguments : List TypeId} (h : s.Sound)
    (harguments : s.argumentsOf? id = some arguments) : s.HasAll arguments := by
  unfold argumentsOf? at harguments
  split at harguments
  · rename_i hshape
    subst harguments
    exact h.hasAll_parts hshape
  · cases harguments

/-- The type arguments that a type may have are handles of the store. -/
theorem hasAll_arguments (h : s.Sound) : s.HasAll ((s.argumentsOf? id).getD []) := by
  cases harguments : s.argumentsOf? id with
  | none => exact hasAll_nil
  | some arguments => exact h.hasAll_argumentsOf harguments

/-- The members of a union have handles of the store. -/
theorem hasAll_membersOf (h : s.Sound) (hid : id.In s) : s.HasAll (s.membersOf id) := by
  unfold membersOf
  split
  · rename_i hshape
    exact h.hasAll_parts hshape
  · exact hasAll_cons.2 ⟨hid, hasAll_nil⟩

/-- The class of a type has a handle of the store. -/
theorem classIdOf?_in {d : ClassId} (h : s.Sound) (hd : s.classIdOf? id = some d) : d.In s := by
  obtain ⟨t, ht, hclass⟩ := Option.bind_eq_some_iff.1 hd
  have hdetail := h.detail id t.shape (shape?_of_get? ht)
  unfold TypeRecord.class? at hclass
  cases hshape : t.shape <;> rw [hshape] at hclass hdetail <;> cases hclass
  exact hdetail

/-- The class of values has a handle of the store. -/
theorem instance?_in {d : ClassId} {literal : Option LiteralValue} (h : s.Sound)
    (hd : s.instance? id = some (d, literal)) : d.In s := by
  unfold instance? at hd
  split at hd
  · rename_i t ht
    have hdetail := h.detail id t.shape (shape?_of_get? ht)
    split at hd
    · split at hd
      · rename_i hshape
        rw [hshape] at hdetail
        cases hd
        exact hdetail
      · cases hd
    · cases hd
  · cases hd

/-- The class of values has a handle of the store. -/
theorem instanceClass?_in {d : ClassId} (h : s.Sound) (hd : s.instanceClass? id = some d) :
    d.In s := by
  obtain ⟨⟨d', literal⟩, hinstance, rfl⟩ := Option.map_eq_some_iff.1 hd
  exact h.instance?_in hinstance

/-- The types that the class of a type refers to have handles of the store. -/
theorem hasAll_classOf {c : ClassDetail} (h : s.Sound) (hc : s.classOf? id = some c) :
    s.HasAll c.types := by
  obtain ⟨d, -, hd⟩ := Option.bind_eq_some_iff.1 hc
  exact h.classes d c hd

/-- The types that the function of a type refers to have handles of the store. -/
theorem hasAll_functionOf {f : FunctionDetail} (h : s.Sound) (hf : s.functionOf? id = some f) :
    s.HasAll f.types := by
  obtain ⟨d, -, hd⟩ := Option.bind_eq_some_iff.1 hf
  exact h.functions d f hd

end Sound

/-- What is found under a key is kept with it. -/
theorem mem_of_lookup {α κ : Type} [BEq κ] [LawfulBEq κ] {entries : List (κ × α)} {key : κ}
    {value : α} (h : entries.lookup key = some value) : (key, value) ∈ entries := by
  obtain ⟨l₁, l₂, rfl, -⟩ := List.lookup_eq_some_iff.1 h
  exact List.mem_append_right _ List.mem_cons_self

/-- What is kept of one key is not changed by what is kept of another one. -/
theorem lookup_cons_of_ne {α κ : Type} [BEq κ] [LawfulBEq κ] {key other : κ} (h : other ≠ key)
    (entries : List (κ × α)) (value : α) :
    ((key, value) :: entries).lookup other = entries.lookup other := by
  rw [List.lookup_cons, beq_false_of_ne h]

/-- The value of a name is one of the values. -/
theorem mem_values_of_get? {α : Type} {t : Named α} {name : String} {value : α}
    (h : t.get? name = some value) : value ∈ t.values :=
  List.mem_map.2 ⟨(name, value), mem_of_lookup h, rfl⟩

/-- The values of named values after one has been given a value. -/
theorem mem_values_insert {α : Type} {t : Named α} {name : String} {value v : α}
    (h : v ∈ (t.insert name value).values) : v = value ∨ v ∈ t.values := by
  induction t with
  | nil => exact .inl (List.mem_singleton.1 h)
  | cons entry rest ih =>
    rw [Named.insert, Named.alter] at h
    split at h
    · rcases List.mem_cons.1 h with hv | hrest
      · exact .inl hv
      · exact .inr (List.mem_cons_of_mem _ hrest)
    · rcases List.mem_cons.1 h with hv | hrest
      · exact .inr (hv ▸ List.mem_cons_self)
      · exact (ih hrest).imp_right (List.mem_cons_of_mem _)

/-- The types of a class's members have handles of the store. -/
theorem Sound.member?_in {d : ClassId} {name : String} (h : s.Sound)
    (hmember : s.member? d name = some id) : id.In s := by
  have hfield : ∀ c : ClassDetail, s.HasAll c.types → c.fields.get? name = some id → id.In s := by
    intro c hc hget
    have hvalue := mem_values_of_get? hget
    exact hc id (by simp [ClassDetail.types, hvalue])
  unfold member? at hmember
  split at hmember
  · cases hmember
  · rename_i c hc
    rcases Option.or_eq_some_iff.1 hmember with hown | ⟨-, hinherited⟩
    · exact hfield c (h.classes d c hc) hown
    · obtain ⟨ancestor, hmem, hget⟩ := List.exists_of_findSome?_eq_some hinherited
      obtain ⟨base, -, hbase⟩ := List.mem_filterMap.1 hmem
      exact hfield ancestor (h.hasAll_classOf hbase) hget

end TypeStore

end TypeProbe
