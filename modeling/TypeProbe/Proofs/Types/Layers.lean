import TypeProbe.Proofs.Types.Unions

/-!
# Types that were there before others

The operands of a type are its type arguments if it is a class or its values, and its members if it
is a union. In a layered store (`TypeStore.Layered`) they were there before the type, so whatever
goes down from types to operands comes to an end. Stores stay layered as long as types are made of
types that are there (`BuiltBy.layered`), and sound stores are layered (`Sound.layered`).
-/

namespace TypeProbe

/-- The types that a substitution goes into: the type arguments of a class and the members of a
union. -/
def TypeShape.operands : TypeShape → List TypeId
  | .nominal _ arguments _ => arguments.getD []
  | .union members => members
  | _ => []

namespace TypeStore

/-- A store in which the operands of a type were there before it, and the type without values is in
its place. -/
structure Layered (s : TypeStore) : Prop where
  /-- The type without values. -/
  never : s.shape? .never = some .never
  /-- The operands of a type were there before it. -/
  operands : ∀ id shape, s.shape? id = some shape → ∀ part ∈ shape.operands, part.index < id.index

/-- A function on stores gives a type of a layered store, and has asked for no union of a handle
that no type has. -/
structure Leaves (s : TypeStore) (result : TypeId × TypeStore) : Prop where
  /-- The store is layered. -/
  layered : result.2.Layered
  /-- The type is there. -/
  present : result.1.In result.2
  /-- Only handles of types have been used. -/
  overran : result.2.overran = s.overran

variable {s s' : TypeStore} {id part : TypeId} {ids : List TypeId} {r : TypeRecord}

namespace Layered

/-- The operands of a type of a layered store are there. -/
theorem hasAll_operands (h : s.Layered) (hget : s.get? id = some r) :
    s.HasAll r.shape.operands := fun part hpart =>
  Nat.lt_trans (h.operands id _ (shape?_of_get? hget) part hpart) (in_of_get? hget)

/-- One level less is enough for the operands of a type. -/
theorem operand_lt (h : s.Layered) (hget : s.get? id = some r) (hpart : part ∈ r.shape.operands)
    {n : Nat} (hn : id.index < n + 1) : part.index < n :=
  Nat.lt_of_lt_of_le (h.operands id _ (shape?_of_get? hget) part hpart) (Nat.le_of_lt_succ hn)

/-- The members of types are there. -/
theorem hasAll_flatten (h : s.Layered) (hids : s.HasAll ids) : s.HasAll (s.flatten ids) := by
  intro member hmember
  rw [flatten_eq, List.mem_eraseDups] at hmember
  obtain ⟨id, hid, hmember⟩ := List.mem_flatMap.1 hmember
  obtain hsingle | ⟨members, hunion⟩ := isSingle_or_union (hids id hid)
  · rw [hsingle.membersOf_eq, List.mem_singleton] at hmember
    exact hmember ▸ hids id hid
  · rw [membersOf_union hunion] at hmember
    exact Nat.lt_trans (h.operands id _ hunion member hmember) (hids id hid)

/-- A type of operands that are there may be added. -/
theorem leaves_add (h : s.Layered) (hr : s.HasAll r.shape.operands) : s.Leaves (s.add r) := by
  have hwithin : s.Within (s.add r).2 := (keeping_add r s).get?
  refine ⟨⟨hwithin.shape? h.never, fun id shape hshape part hpart => ?_⟩,
    in_of_get? (get?_added r), rfl⟩
  obtain ⟨r', hr', rfl⟩ := Option.map_eq_some_iff.1 hshape
  rw [get?_add] at hr'
  split at hr'
  · rename_i hnew
    obtain rfl := Option.some.inj hr'
    exact hnew ▸ hr part hpart
  · exact h.operands id _ (shape?_of_get? hr') part hpart

/-- A union of types that are there may be made. -/
theorem leaves_unionOf (h : s.Layered) (hids : s.HasAll ids) : s.Leaves (s.unionOf ids) := by
  have hall := h.hasAll_flatten hids
  unfold unionOf
  rw [lookUpAll_of_hasAll hids]
  rcases hflat : s.flatten ids with _ | ⟨first, _ | ⟨second, rest⟩⟩
  · exact ⟨h, in_of_shape? h.never, rfl⟩
  · exact ⟨h, hall first (hflat ▸ List.mem_cons_self), rfl⟩
  · exact h.leaves_add (r := ⟨valueFlags, .union (first :: second :: rest)⟩) (hflat ▸ hall)

/-- A store with the same types is layered. -/
theorem of_types (h : s.Layered) (htypes : s'.types = s.types) : s'.Layered := by
  have hshape := shape?_of_types htypes
  exact ⟨(hshape _).trans h.never, fun id shape hid => h.operands id shape (hshape id ▸ hid)⟩

end Layered

/-- A sound store is layered. -/
theorem Sound.layered (h : s.Sound) (hnever : s.shape? .never = some .never) : s.Layered where
  never := hnever
  operands id shape hshape part hpart := by
    refine h.parts id shape hshape part ?_
    cases shape with
    | nominal d arguments literal => exact hpart
    | union members => exact hpart
    | _ => cases hpart

end TypeStore

/-- A call by which types are made of operands that are there, and are not changed. -/
def StoreCall.IsSupplied (s : TypeStore) : StoreCall → Prop
  | .add r => s.HasAll r.shape.operands
  | .specializedClass _ arguments => s.HasAll arguments
  | .specializedInstance _ arguments => s.HasAll arguments
  | .unionOf ids => s.HasAll ids
  | call => call.LeavesShapes s

namespace TypeStore

variable {s : TypeStore}

/-- A supplied call makes types of operands that are there. -/
theorem hasAll_of_made? {call : StoreCall} (hcall : call.IsSupplied s) {r : TypeRecord}
    (hr : call.made? = some r) : s.HasAll r.shape.operands := by
  cases call with
  | add r' =>
    cases hr
    exact hcall
  | specializedClass d arguments =>
    cases hr
    exact hcall
  | specializedInstance d arguments =>
    cases hr
    exact hcall
  | _ => cases hr <;> exact hasAll_nil

/-- A supplied call leaves a layered store. -/
theorem Layered.run {call : StoreCall} (h : s.Layered) (hcall : call.IsSupplied s) :
    (call.run s).Layered := by
  obtain hsame | ⟨r, hr, hadded⟩ | ⟨ids, rfl⟩ | ⟨id, change, rfl⟩ := call.run_cases s
  · exact h.of_types hsame
  · exact (h.leaves_add (hasAll_of_made? hcall hr)).layered.of_types hadded
  · exact (h.leaves_unionOf hcall).layered
  · have hshape := shape?_modify_of_leaves hcall
    exact ⟨(hshape _).trans h.never, fun id' shape hid => h.operands id' shape (hshape id' ▸ hid)⟩

/-- Every store that supplied calls have left is layered. -/
theorem BuiltBy.layered (h : BuiltBy StoreCall.IsSupplied s) : s.Layered := by
  induction h with
  | initial =>
    refine ⟨rfl, ?_⟩
    rintro ⟨_ | _ | _ | _ | _ | _ | i⟩ shape h <;> cases h <;> exact nofun
  | call _ _ hcall ih => exact ih.run hcall

end TypeStore

end TypeProbe
