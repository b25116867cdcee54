import TypeProbe.Proofs.Types.Covering

/-!
# Types that operations lead to

Numbers, texts, tuples and operations on them have types of values of the classes that are known
beforehand, types of which nothing is known, and unions of such types (`TypeStore.IsOrdinary`).
These classes have no members for operations, so that an operation on an ordinary type leads to no
call of something that is defined in a module.
-/

namespace TypeProbe.TypeStore

/-- A type is made of values of classes that are known beforehand, or nothing is known of it. -/
inductive IsOrdinary (s : TypeStore) : TypeId → Prop
  | value {id : TypeId} {d : ClassId} {arguments : Option (List TypeId)}
    {literal : Option LiteralValue} (h : s.IsNominal id d arguments literal)
    (hd : d.In Builtins.foreknown.2) : IsOrdinary s id
  | unknown {id : TypeId} {incomplete : Bool} (h : s.shape? id = some (.unknown incomplete)) :
    IsOrdinary s id
  | never {id : TypeId} (h : s.shape? id = some .never) : IsOrdinary s id
  | union {id : TypeId} {members : List TypeId} (h : s.shape? id = some (.union members))
    (hmembers : ∀ part ∈ members, IsOrdinary s part) : IsOrdinary s id

variable {s s' : TypeStore} {id t : TypeId} {ids : List TypeId} {d : ClassId}

/-- Ordinary types stay ordinary. -/
theorem IsOrdinary.mono (h : s.IsOrdinary id) (hw : s.Within s') : s'.IsOrdinary id := by
  induction h with
  | value h hd => exact .value (h.mono hw) hd
  | unknown h => exact .unknown (hw.shape? h)
  | never h => exact .never (hw.shape? h)
  | union h _ ih => exact .union (hw.shape? h) ih

/-- Ordinary types that stand for values of a class do so in the way of values. -/
theorem IsOrdinary.isNominal {literal : Option LiteralValue} (h : s.IsOrdinary id)
    (hinstance : s.instance? id = some (d, literal)) :
    ∃ arguments, s.IsNominal id d arguments literal ∧ d.In Builtins.foreknown.2 := by
  have hnone : ∀ {shape}, s.shape? id = some shape → (∀ d arguments literal,
      shape ≠ .nominal d arguments literal) → s.instance? id = none := by
    intro shape hshape hne
    obtain ⟨⟨flags, _⟩, hget, rfl⟩ := Option.map_eq_some_iff.1 hshape
    unfold instance?
    rw [hget]
    dsimp only
    split
    · split
      · exact absurd rfl (hne _ _ _)
      · rfl
    · rfl
  cases h with
  | value h hd =>
    cases h.instance?_eq.symm.trans hinstance
    exact ⟨_, h, hd⟩
  | unknown h => cases (hnone h nofun).symm.trans hinstance
  | never h => cases (hnone h nofun).symm.trans hinstance
  | union h => cases (hnone h nofun).symm.trans hinstance

section Foreknown

variable (hs : s.Foreknows)
include hs

/-- The unknown type is ordinary. -/
theorem isOrdinary_unknown : s.IsOrdinary .unknown := .unknown hs.shape?_unknown

/-- The union of ordinary types is ordinary. -/
theorem isOrdinary_unionOf (h : ∀ t ∈ ids, s.IsOrdinary t) :
    (s.unionOf ids).2.IsOrdinary (s.unionOf ids).1 := by
  have hwithin : s.Within (s.unionOf ids).2 := (keeping_unionOf ids s).get?
  have hflat : ∀ part ∈ s.flatten ids, s.IsOrdinary part := by
    intro part hpart
    obtain ⟨t, ht, hmember⟩ := List.mem_flatMap.1
      ((mem_foldl_insertNew _ hpart).resolve_left List.not_mem_nil)
    unfold membersOf at hmember
    split at hmember
    · rename_i members hshape
      cases h t ht with
      | union h hmembers =>
        cases hshape.symm.trans h
        exact hmembers part hmember
      | value h => cases hshape.symm.trans (shape?_of_get? h)
      | unknown h | never h => cases hshape.symm.trans h
    · rw [List.mem_singleton.1 hmember]
      exact h t ht
  unfold unionOf at hwithin ⊢
  match hmembers : s.flatten ids with
  | [] => exact .never hs.shape?_never
  | [only] =>
    rw [hmembers] at hflat hwithin
    exact (hflat only (List.mem_singleton_self only)).mono hwithin
  | first :: second :: rest =>
    rw [hmembers] at hflat hwithin
    exact .union (shape?_of_get? ((get?_add _ _).trans (if_pos rfl)))
      fun part hpart => (hflat part hpart).mono hwithin

/-- The union of types of which nothing is known is the unknown type. -/
theorem unionOf_eq_unknown (hne : ids ≠ []) (h : ∀ t ∈ ids, t = .unknown) :
    s.unionOf ids = (.unknown, s) := by
  have hall : s.HasAll ids := fun t ht => h t ht ▸ in_of_shape? hs.shape?_unknown
  have hmembers : s.membersOf .unknown = [.unknown] := by
    unfold membersOf
    rw [hs.shape?_unknown]
  have hfold : ∀ ids : List TypeId, (∀ t ∈ ids, t = .unknown) →
      (ids.flatMap s.membersOf).foldl insertNew [TypeId.unknown] = [.unknown] := by
    intro ids hids
    induction ids with
    | nil => rfl
    | cons t ids ih =>
      obtain rfl := hids t List.mem_cons_self
      rw [List.flatMap_cons, hmembers]
      exact ih fun t ht => hids t (List.mem_cons_of_mem _ ht)
  have hflat : s.flatten ids = [.unknown] := by
    cases ids with
    | nil => exact absurd rfl hne
    | cons t ids =>
      obtain rfl := h t List.mem_cons_self
      rw [flatten, List.flatMap_cons, hmembers]
      exact hfold ids fun t ht => h t (List.mem_cons_of_mem _ ht)
  rw [unionOf, hflat, lookUpAll_of_hasAll hall]

end Foreknown

/-! ## What has an ordinary type -/

/-- A type of one value of a class that is known beforehand is ordinary. -/
theorem isOrdinary_literal (hd : d.In Builtins.foreknown.2) (value : LiteralValue) :
    (s.literal d value).2.IsOrdinary (s.literal d value).1 :=
  .value Array.getElem?_push_size hd

/-- A type of values of a class that is known beforehand, with type arguments, is ordinary. -/
theorem isOrdinary_specializedInstance (hd : d.In Builtins.foreknown.2) (types : List TypeId) :
    (s.specializedInstance d types).2.IsOrdinary (s.specializedInstance d types).1 :=
  .value Array.getElem?_push_size hd

section Regular

variable {b : Builtins} (hs : s.Regular)
include hs

/-- The plain type of values of a class that is known beforehand is ordinary. -/
theorem isOrdinary_instanceOf (hd : d.In Builtins.foreknown.2) :
    (s.instanceOf d).2.IsOrdinary (s.instanceOf d).1 :=
  .value (works_instanceOf (hs.class_in hd) hs.sound).2.2 hd

/-- A type of values of a class that is known beforehand is ordinary without its literal value. -/
theorem isOrdinary_widen {arguments : Option (List TypeId)} {literal : Option LiteralValue}
    (h : s.IsNominal id d arguments literal) (hd : d.In Builtins.foreknown.2) :
    (widen id s).2.IsOrdinary (widen id s).1 := by
  have heq : widen id s = literal.elim (id, s) fun _ => s.instanceOf d := by
    unfold widen widenAt
    rw [get_bind_apply, shape?_of_get? h]
    cases literal <;> rfl
  rw [heq]
  cases literal with
  | none => exact .value h hd
  | some value => exact isOrdinary_instanceOf hs hd

variable (hb : b.In Builtins.foreknown.2)
include hb

/-- The type of a number is ordinary. -/
theorem isOrdinary_number (n : NumberLiteral) :
    (Values.number b n s).2.IsOrdinary (Values.number b n s).1 := by
  unfold Values.number
  split
  · exact isOrdinary_instanceOf hs hb.complex
  · split
    · exact isOrdinary_literal hb.int _
    · exact isOrdinary_instanceOf hs hb.float

/-- The type of an operation on numbers is ordinary. -/
theorem isOrdinary_arithmetic (op : Operator) (rank : Nat) (left right : Option LiteralValue) :
    (Values.arithmetic b op rank left right s).2.IsOrdinary
      (Values.arithmetic b op rank left right s).1 := by
  unfold Values.arithmetic
  split
  · extract_lets folded
    clear_value folded
    cases folded with
    | some value => exact isOrdinary_literal hb.int _
    | none =>
      refine isOrdinary_instanceOf hs ?_
      split
      · exact hb.float
      · exact hb.int
  · split
    · exact isOrdinary_unknown hs.foreknows
    · refine isOrdinary_instanceOf hs ?_
      split
      · exact hb.float
      · exact hb.complex

end Regular

end TypeProbe.TypeStore
