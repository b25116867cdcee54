import TypeProbe.Proofs.Types.Foreknown

/-!
# Types that stay as they were made

Types are added to a store and never changed, so what a type was made of, and how, can be told later
on. `TypeStore.Within` says that all types of a store have stayed, `TypeStore.Made` that a type was
made by some work at a time when certain types were there, and `TypeStore.IsNominal` that it stands
for values of a class.
-/

namespace TypeProbe

namespace TypeStore

/-- The types of a store are in another one as they are. -/
def Within (s s' : TypeStore) : Prop := ∀ id t, s.get? id = some t → s'.get? id = some t

/-- A sound store in which what is known beforehand is as it was. -/
structure Regular (s : TypeStore) : Prop where
  /-- The store is sound. -/
  sound : s.Sound
  /-- What is known beforehand is there. -/
  foreknows : s.Foreknows

/-- Something was true of the store at some time when the given types were there, and all types of
then have stayed. -/
def Once (s' : TypeStore) (ids : List TypeId) (P : TypeStore → Prop) : Prop :=
  ∃ s : TypeStore, s.Regular ∧ s.HasAll ids ∧ s.Within s' ∧ P s

/-- A type was made by some work on the store at some time when the given types were there, and all
types of then have stayed. -/
def Made (s' : TypeStore) (ids : List TypeId) (work : TypeStore → TypeId × TypeStore)
    (t : TypeId) : Prop :=
  ∃ s : TypeStore, s.Regular ∧ s.HasAll ids ∧ (work s).1 = t ∧ (work s).2.Within s'

/-- A type stands for values of a class. -/
def IsNominal (s : TypeStore) (id : TypeId) (d : ClassId) (arguments : Option (List TypeId))
    (literal : Option LiteralValue) : Prop :=
  s.get? id = some ⟨valueFlags, .nominal d arguments literal⟩

variable {s s' s'' : TypeStore} {ids : List TypeId} {id t : TypeId} {d : ClassId}
  {arguments : Option (List TypeId)} {literal : Option LiteralValue}

/-- The store may be looked at first. -/
theorem get_bind_apply {α : Type} (f : TypeStore → StateM TypeStore α) (s : TypeStore) :
    (MonadState.get >>= f) s = f s s := rfl

/-- A store is within itself. -/
theorem Within.refl (s : TypeStore) : s.Within s := fun _ _ h => h

/-- Types that stay twice stay. -/
theorem Within.trans (h : s.Within s') (h' : s'.Within s'') : s.Within s'' :=
  fun id t ht => h' id t (h id t ht)

/-- A type that stands for values stands for no class. -/
theorem not_isInstantiable_value (shape : TypeShape) :
    ¬(⟨valueFlags, shape⟩ : TypeRecord).isInstantiable = true :=
  show ¬valueFlags.has .instantiable = true by decide

/-- What was true once was true once later on. -/
theorem Once.mono {P Q : TypeStore → Prop} (h : s'.Once ids P) (hw : s'.Within s'')
    (hPQ : ∀ s, P s → Q s) : s''.Once ids Q := by
  obtain ⟨s, hs, hids, hwithin, hP⟩ := h
  exact ⟨s, hs, hids, hwithin.trans hw, hPQ s hP⟩

/-- What was made was made later on. -/
theorem Made.mono {work : TypeStore → TypeId × TypeStore} (h : s'.Made ids work t)
    (hw : s'.Within s'') : s''.Made ids work t := by
  obtain ⟨s, hs, hids, ht, hwithin⟩ := h
  exact ⟨s, hs, hids, ht, hwithin.trans hw⟩

/-- A type of values of a class is that later on. -/
theorem IsNominal.mono (h : s.IsNominal id d arguments literal) (hw : s.Within s') :
    s'.IsNominal id d arguments literal := hw _ _ h

/-- A type that was there is what it was. -/
theorem Within.get?_eq (hw : s.Within s') (hid : id.In s) : s'.get? id = s.get? id := by
  have hsome : s.get? id = some s.types[id.index] := Array.getElem?_eq_getElem hid
  rw [hsome]
  exact hw _ _ hsome

namespace IsNominal

/-- The class of a type of values and its literal value. -/
theorem instance?_eq (h : s.IsNominal id d arguments literal) :
    s.instance? id = some (d, literal) := by
  have hinstance : valueFlags.has .instance = true := by decide
  unfold IsNominal at h
  unfold instance?
  rw [h]
  exact if_pos hinstance

/-- The class of a type of values. -/
theorem instanceClass?_eq (h : s.IsNominal id d arguments literal) :
    s.instanceClass? id = some d := by
  rw [instanceClass?, h.instance?_eq]
  rfl

/-- The type arguments of a type of values. -/
theorem argumentsOf?_eq (h : s.IsNominal id d arguments literal) :
    s.argumentsOf? id = arguments := by
  unfold argumentsOf?
  rw [shape?_of_get? h]

/-- A type of values is known. -/
theorem isUnknown_eq (h : s.IsNominal id d arguments literal) : s.isUnknown id = false := by
  unfold isUnknown
  rw [shape?_of_get? h]

/-- A type stands for values in one way only. -/
theorem unique {d' : ClassId} {arguments' : Option (List TypeId)} {literal' : Option LiteralValue}
    (h : s.IsNominal id d arguments literal) (h' : s.IsNominal id d' arguments' literal') :
    d' = d ∧ arguments' = arguments ∧ literal' = literal := by
  have heq := h'.symm.trans h
  cases heq
  exact ⟨rfl, rfl, rfl⟩

/-- A type of values has a handle. -/
theorem in_store (h : s.IsNominal id d arguments literal) : id.In s := in_of_get? h

end IsNominal

/-- What is unknown is missing or made as such. -/
theorem get?_of_isUnknown (h : s.isUnknown id = true) :
    s.get? id = none ∨ ∃ flags incomplete, s.get? id = some ⟨flags, .unknown incomplete⟩ := by
  unfold isUnknown shape? at h
  cases hget : s.get? id with
  | none => exact .inl rfl
  | some t =>
    obtain ⟨flags, shape⟩ := t
    rw [hget] at h
    cases shape with
    | unknown incomplete => exact .inr ⟨flags, incomplete, rfl⟩
    | _ => cases h

/-- What is unknown is no value of a class. -/
theorem instance?_of_isUnknown (h : s.isUnknown id = true) : s.instance? id = none := by
  unfold instance?
  rcases get?_of_isUnknown h with hget | ⟨flags, incomplete, hget⟩
  · rw [hget]
  · rw [hget]
    dsimp only
    split
    · rfl
    · rfl

/-- A literal type stands for its value. -/
theorem Made.isNominal_literal {value : LiteralValue} (h : s'.Made ids (·.literal d value) t) :
    s'.IsNominal t d none (some value) := by
  obtain ⟨s, -, -, rfl, hwithin⟩ := h
  exact hwithin _ _ Array.getElem?_push_size

/-- A type with type arguments has these. -/
theorem Made.isNominal_specialized {types : List TypeId}
    (h : s'.Made ids (·.specializedInstance d types) t) :
    s'.IsNominal t d (some types) none := by
  obtain ⟨s, -, -, rfl, hwithin⟩ := h
  exact hwithin _ _ Array.getElem?_push_size

/-- Classes that are known beforehand are there. -/
theorem Regular.class_in (hs : s.Regular) (hd : d.In Builtins.foreknown.2) : d.In s := by
  have hc := hs.foreknows.classes d _ (Array.getElem?_eq_getElem hd)
  exact (Array.getElem?_eq_some_iff.1 hc).1

/-- The plain type of values of a class that is known beforehand stands for them. -/
theorem Made.isNominal_instanceOf (h : s'.Made ids (·.instanceOf d) t)
    (hd : d.In Builtins.foreknown.2) : s'.IsNominal t d none none := by
  obtain ⟨s, hs, -, rfl, hwithin⟩ := h
  exact hwithin _ _ (works_instanceOf (hs.class_in hd) hs.sound).2.2

end TypeStore

end TypeProbe
