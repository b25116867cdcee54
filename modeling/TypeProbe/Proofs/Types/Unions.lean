import Mathlib.Data.List.Induction
import Mathlib.Data.List.Nodup
import TypeProbe.Proofs.Types.Building

/-!
# Unions are flat

`unionOf` takes over the members of unions, one level deep, each once and in the order in which they
first come up (`TypeStore.IsUnionOf`). That no member of a union is a union itself is true of the
whole store: if no other function adds a union, every union has at least two members, each once and
none of them a union (`TypeStore.Plural`). It follows that unions are associative: the union of a
union with further types has the members of the union of all these types (`BuiltBy.unions`).
-/

namespace TypeProbe

/-! ## Lists without repetitions -/

namespace TypeStore

section Lists

variable {α : Type} [BEq α] [LawfulBEq α]

/-- An element at the end counts only if it is new. -/
theorem eraseDups_concat (as : List α) (a : α) :
    (as ++ [a]).eraseDups = if a ∈ as then as.eraseDups else as.eraseDups ++ [a] := by
  rw [List.eraseDups_append, List.removeAll]
  by_cases ha : a ∈ as
  · simp [ha]
  · simp [ha, List.eraseDups_cons]

/-- Inserting elements one by one where they are new erases repetitions. -/
theorem foldl_insertNew (as : List α) : as.foldl insertNew [] = as.eraseDups := by
  induction as using List.reverseRecOn with
  | nil => rfl
  | append_singleton as a ih =>
    rw [List.foldl_concat, ih, eraseDups_concat, insertNew, List.contains_eq_mem]
    simp only [List.mem_eraseDups, decide_eq_true_eq]

/-- Nothing is repeated in a list without its repetitions. -/
theorem nodup_eraseDups (as : List α) : as.eraseDups.Nodup := by
  induction as using List.reverseRecOn with
  | nil => exact List.nodup_nil
  | append_singleton as a ih =>
    rw [eraseDups_concat]
    split
    · exact ih
    · rename_i ha
      rw [← List.concat_eq_append]
      exact ih.concat fun hmem => ha (List.mem_eraseDups.1 hmem)

/-- A list in which nothing is repeated stays as it is. -/
theorem eraseDups_of_nodup {as : List α} (h : as.Nodup) : as.eraseDups = as := by
  induction as using List.reverseRecOn with
  | nil => rfl
  | append_singleton as a ih =>
    rw [← List.concat_eq_append] at h
    obtain ⟨ha, has⟩ := (List.nodup_concat as a).1 h
    rw [eraseDups_concat, if_neg ha, ih has]

/-- Repetitions may be erased from a part first. -/
theorem eraseDups_append_eraseDups (as bs : List α) :
    (as.eraseDups ++ bs).eraseDups = (as ++ bs).eraseDups := by
  have hrest : bs.removeAll as.eraseDups = bs.removeAll as := by
    simp only [List.removeAll, List.elem_eq_mem, List.mem_eraseDups]
  rw [List.eraseDups_append, List.eraseDups_append, hrest, eraseDups_of_nodup (nodup_eraseDups as)]

end Lists

variable {s s' s'' : TypeStore} {id t : TypeId} {ids members : List TypeId}

/-! ## What a union is -/

/-- A type is there and is no union. -/
def IsSingle (s : TypeStore) (id : TypeId) : Prop :=
  ∃ shape, s.shape? id = some shape ∧ ∀ members, shape ≠ .union members

/-- A type is the union of others, as it has been made in a store: a new union of their members in
the order in which they first come up, or the only member, or the type without values. -/
def IsUnionOf (s s' : TypeStore) (ids : List TypeId) (t : TypeId) : Prop :=
  match (ids.flatMap s'.membersOf).eraseDups with
  | [] => t = .never
  | [only] => t = only
  | members => ¬t.In s ∧ s'.get? t = some ⟨valueFlags, .union members⟩

/-- A type that is no union stays none. -/
theorem IsSingle.mono (h : s.IsSingle id) (hw : s.Within s') : s'.IsSingle id := by
  obtain ⟨shape, hshape, hunion⟩ := h
  exact ⟨shape, hw.shape? hshape, hunion⟩

/-- A type that is no union is there. -/
theorem IsSingle.in_store (h : s.IsSingle id) : id.In s := by
  obtain ⟨shape, hshape, -⟩ := h
  exact in_of_shape? hshape

/-- What is no union has itself as a member only. -/
theorem membersOf_of_ne (h : ∀ members, s.shape? id ≠ some (.union members)) :
    s.membersOf id = [id] := by
  unfold membersOf
  split
  · rename_i hunion
    exact absurd hunion (h _)
  · rfl

/-- A type that is no union has itself as a member only. -/
theorem IsSingle.membersOf_eq (h : s.IsSingle id) : s.membersOf id = [id] := by
  obtain ⟨shape, hshape, hunion⟩ := h
  exact membersOf_of_ne fun members heq =>
    hunion members (Option.some.inj (hshape.symm.trans heq))

/-- The members of a union. -/
theorem membersOf_union (h : s.shape? id = some (.union members)) : s.membersOf id = members := by
  unfold membersOf
  rw [h]

/-- Types that are no unions have themselves as members. -/
theorem flatMap_membersOf_of_single (h : ∀ id ∈ ids, s.IsSingle id) :
    ids.flatMap s.membersOf = ids :=
  (List.flatMap_congr fun id hid => (h id hid).membersOf_eq).trans (List.flatMap_singleton' ids)

/-- A type that was there has the same members later on. -/
theorem Within.membersOf_eq (hw : s.Within s') (hid : id.In s) :
    s'.membersOf id = s.membersOf id := by
  unfold membersOf
  rw [hw.shape?_eq hid]

/-- A type that was there is there later on. -/
theorem Within.in_store (hw : s.Within s') (hid : id.In s) : id.In s' :=
  in_of_get? (hw id _ (Array.getElem?_eq_getElem hid))

/-- Types that were there are there later on. -/
theorem Within.hasAll (hw : s.Within s') (hids : s.HasAll ids) : s'.HasAll ids :=
  fun id hid => hw.in_store (hids id hid)

/-- Types that were there have the same members later on. -/
theorem Within.flatMap_membersOf (hw : s.Within s') (hids : s.HasAll ids) :
    ids.flatMap s'.membersOf = ids.flatMap s.membersOf :=
  List.flatMap_congr fun id hid => hw.membersOf_eq (hids id hid)

/-- The members of the union of types are their members, each once. -/
theorem flatten_eq (s : TypeStore) (ids : List TypeId) :
    s.flatten ids = (ids.flatMap s.membersOf).eraseDups := foldl_insertNew _

/-- What `unionOf` gives is the union of the types. -/
theorem isUnionOf_unionOf (hids : s.HasAll ids) :
    s.IsUnionOf (s.unionOf ids).2 ids (s.unionOf ids).1 := by
  have hwithin : s.Within (s.unionOf ids).2 := (keeping_unionOf ids s).get?
  rw [IsUnionOf, hwithin.flatMap_membersOf hids, ← flatten_eq]
  unfold unionOf
  rcases s.flatten ids with _ | ⟨first, _ | ⟨second, rest⟩⟩
  · rfl
  · rfl
  · exact ⟨Nat.lt_irrefl _, get?_added (s := s.lookUpAll ids) _⟩

/-- A union that has been made of types whose members are no unions is there, and its members are
those of the types, each once. -/
theorem membersOf_unionOf (hids : s.HasAll ids) (hne : ids.flatMap s.membersOf ≠ [])
    (hsingle : ∀ part ∈ ids.flatMap s.membersOf, s.IsSingle part) :
    (s.unionOf ids).1.In (s.unionOf ids).2 ∧
      (s.unionOf ids).2.membersOf (s.unionOf ids).1 = (ids.flatMap s.membersOf).eraseDups := by
  have hwithin : s.Within (s.unionOf ids).2 := (keeping_unionOf ids s).get?
  have hunion := isUnionOf_unionOf hids
  rw [IsUnionOf, hwithin.flatMap_membersOf hids] at hunion
  rcases hflat : (ids.flatMap s.membersOf).eraseDups with _ | ⟨first, _ | ⟨second, rest⟩⟩
  · obtain ⟨part, hpart⟩ := List.exists_mem_of_ne_nil _ hne
    rw [← List.mem_eraseDups, hflat] at hpart
    cases hpart
  · rw [hflat] at hunion
    obtain rfl : _ = first := hunion
    have hfirst := List.mem_eraseDups.1 (hflat ▸ List.mem_cons_self)
    have honly := (hsingle _ hfirst).mono hwithin
    exact ⟨honly.in_store, honly.membersOf_eq⟩
  · rw [hflat] at hunion
    exact ⟨in_of_get? hunion.2, membersOf_union (shape?_of_get? hunion.2)⟩

/-! ## Flat stores -/

/-- A store in which no union has a member twice, or a union among its members. -/
structure Flat (s : TypeStore) : Prop where
  /-- No member is repeated. -/
  nodup : ∀ id members, s.shape? id = some (.union members) → members.Nodup
  /-- All members are there, and none is a union. -/
  single : ∀ id members, s.shape? id = some (.union members) → ∀ part ∈ members, s.IsSingle part

/-- A flat store in which every union has several members. -/
structure Plural (s : TypeStore) : Prop extends s.Flat where
  /-- No union could be replaced by its only member. -/
  several : ∀ id members, s.shape? id = some (.union members) → 2 ≤ members.length

/-- A type that is there is no union, or has members. -/
theorem isSingle_or_union (hid : id.In s) :
    s.IsSingle id ∨ ∃ members, s.shape? id = some (.union members) := by
  have hshape := shape?_of_get? (s := s) (Array.getElem?_eq_getElem hid)
  by_cases hunion : ∃ members, s.shape? id = some (.union members)
  · exact .inr hunion
  · exact .inl ⟨_, hshape, fun members heq => hunion ⟨members, hshape.trans (congrArg some heq)⟩⟩

namespace Flat

/-- The members of a type are no unions. -/
theorem isSingle_of_mem (h : s.Flat) (hid : id.In s) (ht : t ∈ s.membersOf id) : s.IsSingle t := by
  obtain hsingle | ⟨members, hunion⟩ := isSingle_or_union hid
  · rw [hsingle.membersOf_eq, List.mem_singleton] at ht
    exact ht ▸ hsingle
  · rw [membersOf_union hunion] at ht
    exact h.single id members hunion t ht

/-- The members of types are no unions. -/
theorem isSingle_of_mem_flatMap (h : s.Flat) (hids : s.HasAll ids)
    (ht : t ∈ ids.flatMap s.membersOf) : s.IsSingle t := by
  obtain ⟨id, hid, hmember⟩ := List.mem_flatMap.1 ht
  exact h.isSingle_of_mem (hids id hid) hmember

end Flat

namespace Plural

/-- Every type has a member. -/
theorem membersOf_ne_nil (h : s.Plural) (hid : id.In s) : s.membersOf id ≠ [] := by
  obtain hsingle | ⟨members, hunion⟩ := isSingle_or_union hid
  · rw [hsingle.membersOf_eq]
    exact List.cons_ne_nil _ _
  · rw [membersOf_union hunion]
    have hseveral := h.several id members hunion
    exact List.ne_nil_of_length_pos (Nat.lt_of_lt_of_le Nat.zero_lt_two hseveral)

/-- Types have members. -/
theorem flatMap_membersOf_ne_nil (h : s.Plural) (hids : s.HasAll ids) (hne : ids ≠ []) :
    ids.flatMap s.membersOf ≠ [] := by
  obtain ⟨id, hid⟩ := List.exists_mem_of_ne_nil ids hne
  exact fun hnil => h.membersOf_ne_nil (hids id hid) (List.flatMap_eq_nil_iff.1 hnil id hid)

/-- Only the types count. -/
theorem of_types (h : s.Plural) (htypes : s'.types = s.types) : s'.Plural := by
  have hshape := shape?_of_types htypes
  refine ⟨⟨fun id members hid => h.nodup id members (hshape id ▸ hid),
    fun id members hid part hpart => ?_⟩,
    fun id members hid => h.several id members (hshape id ▸ hid)⟩
  obtain ⟨shape, hpresent, hunion⟩ := h.single id members (hshape id ▸ hid) part hpart
  exact ⟨shape, (hshape part).trans hpresent, hunion⟩

/-- A type may be added if it is no union, or one of several members that are none. -/
theorem add {r : TypeRecord} (h : s.Plural) (hunion : ∀ members, r.shape = .union members →
    2 ≤ members.length ∧ members.Nodup ∧ ∀ part ∈ members, s.IsSingle part) :
    (s.add r).2.Plural := by
  have hwithin : s.Within (s.add r).2 := (keeping_add r s).get?
  -- A union that is there now is the new type or was there before.
  have hcases : ∀ id members, (s.add r).2.shape? id = some (.union members) →
      2 ≤ members.length ∧ members.Nodup ∧ ∀ part ∈ members, s.IsSingle part := by
    intro id members hid
    obtain ⟨r', hr', hshape⟩ := Option.map_eq_some_iff.1 hid
    rw [get?_add] at hr'
    split at hr'
    · obtain rfl := Option.some.inj hr'
      exact hunion members hshape
    · have hold := (shape?_of_get? hr').trans (congrArg some hshape)
      exact ⟨h.several id members hold, h.nodup id members hold, h.single id members hold⟩
  refine ⟨⟨fun id members hid => (hcases id members hid).2.1, fun id members hid part hpart => ?_⟩,
    fun id members hid => (hcases id members hid).1⟩
  exact ((hcases id members hid).2.2 part hpart).mono hwithin

/-- A union may be made of types that are there. -/
theorem unionOf (h : s.Plural) (hids : s.HasAll ids) : (s.unionOf ids).2.Plural := by
  have hnodup : (s.flatten ids).Nodup := flatten_eq s ids ▸ nodup_eraseDups _
  have hsingle : ∀ part ∈ s.flatten ids, s.IsSingle part := by
    intro part hpart
    rw [flatten_eq, List.mem_eraseDups] at hpart
    exact h.isSingle_of_mem_flatMap hids hpart
  have hfound : (s.lookUpAll ids).Plural := h.of_types rfl
  unfold TypeStore.unionOf
  rcases hflat : s.flatten ids with _ | ⟨first, _ | ⟨second, rest⟩⟩
  · exact hfound
  · exact hfound
  · rw [hflat] at hsingle hnodup
    refine hfound.add fun members heq => ?_
    cases heq
    exact ⟨Nat.le_add_left 2 rest.length, hnodup, hsingle⟩

/-- A type may be changed if it does not become a union. -/
theorem modify {change : TypeRecord → TypeRecord} (h : s.Plural)
    (hchange : ∀ r, s.get? id = some r → ∀ members, (change r).shape = .union members →
      r.shape = .union members) : (s.modify id change).Plural := by
  -- A union that is there after the change was the same before.
  have hold : ∀ id' members, (s.modify id change).shape? id' = some (.union members) →
      s.shape? id' = some (.union members) := by
    intro id' members hid
    rw [shape?_modify] at hid
    obtain ⟨r, hr, hshape⟩ := Option.map_eq_some_iff.1 hid
    split at hshape
    · rename_i heq
      obtain rfl : id = id' := congrArg TypeId.mk heq
      exact (shape?_of_get? hr).trans (congrArg some (hchange r hr members hshape))
    · exact (shape?_of_get? hr).trans (congrArg some hshape)
  refine ⟨⟨fun id' members hid => h.nodup id' members (hold id' members hid),
    fun id' members hid part hpart => ?_⟩,
    fun id' members hid => h.several id' members (hold id' members hid)⟩
  obtain ⟨shape, hshape, hunion⟩ := h.single id' members (hold id' members hid) part hpart
  obtain ⟨r, hr, rfl⟩ := Option.map_eq_some_iff.1 hshape
  have hpresent : ((s.modify id change).shape? part) =
      some (if id.index = part.index then (change r).shape else r.shape) := by
    rw [shape?_modify, hr]
    rfl
  refine ⟨_, hpresent, fun inner heq => hunion inner ?_⟩
  rw [heq] at hpresent
  exact Option.some.inj ((shape?_of_get? hr).symm.trans (hold part inner hpresent))

end Plural

end TypeStore

/-! ## All stores -/

/-- A call by which unions come about in one way only: nothing else adds one, or makes one out of a
type, and unions are made of types that are there. -/
def StoreCall.IsProper (s : TypeStore) : StoreCall → Prop
  | .add r => ∀ members, r.shape ≠ .union members
  | .unionOf ids => s.HasAll ids
  | .modify id change => ∀ r, s.get? id = some r → ∀ members, (change r).shape = .union members →
    r.shape = .union members
  | _ => True

namespace TypeStore

variable {s s' : TypeStore}

/-- A proper call makes no union but by `unionOf`. -/
theorem ne_union_of_made? {call : StoreCall} (hcall : call.IsProper s) {r : TypeRecord}
    (hr : call.made? = some r) (members : List TypeId) : r.shape ≠ .union members := by
  cases call with
  | add r' =>
    cases hr
    exact hcall members
  | _ => cases hr <;> exact nofun

/-- A proper call leaves unions flat. -/
theorem Plural.run {call : StoreCall} (h : s.Plural) (hcall : call.IsProper s) :
    (call.run s).Plural := by
  obtain hsame | ⟨r, hr, hadded⟩ | ⟨ids, rfl⟩ | ⟨id, change, rfl⟩ := call.run_cases s
  · exact h.of_types hsame
  · have hadd : (s.add r).2.Plural :=
      h.add fun members heq => absurd heq (ne_union_of_made? hcall hr members)
    exact hadd.of_types hadded
  · exact h.unionOf hcall
  · exact h.modify hcall

/-- Unions are flat in every store that proper calls have left. -/
theorem BuiltBy.plural (h : BuiltBy StoreCall.IsProper s) : s.Plural := by
  induction h with
  | initial =>
    have hnone : ∀ id members, TypeStore.initial.shape? id ≠ some (.union members) := by
      rintro ⟨_ | _ | _ | _ | _ | _ | i⟩ members h <;> cases h
    exact ⟨⟨fun id members h => absurd h (hnone id members),
      fun id members h => absurd h (hnone id members)⟩,
      fun id members h => absurd h (hnone id members)⟩
  | call _ _ hcall ih => exact ih.run hcall

/-- Types that were there have the same union later on. -/
theorem Plural.membersOf_unionOf_later {ids : List TypeId} (h : s'.Plural) (hw : s.Within s')
    (hids : s.HasAll ids) (hne : ids ≠ []) :
    (s'.unionOf ids).1.In (s'.unionOf ids).2 ∧
      (s'.unionOf ids).2.membersOf (s'.unionOf ids).1 = (ids.flatMap s.membersOf).eraseDups := by
  have hids' := hw.hasAll hids
  rw [← hw.flatMap_membersOf hids]
  exact membersOf_unionOf hids' (h.flatMap_membersOf_ne_nil hids' hne)
    fun part hpart => h.isSingle_of_mem_flatMap hids' hpart

/-- However a store comes about, as long as unions are made by `unionOf` only, every union in it has
at least two members, each once and none of them a union. The union of types has their members, each
once and in the order in which they first come up, so it does not matter for the members of a union
whether some of its types have been made a union of their own before. -/
theorem BuiltBy.unions (h : BuiltBy StoreCall.IsProper s) :
    (∀ id members, s.shape? id = some (.union members) →
      2 ≤ members.length ∧ members.Nodup ∧ ∀ part ∈ members, s.IsSingle part) ∧
    ∀ xs ys, s.HasAll xs → s.HasAll ys → xs ≠ [] →
      let one := s.unionOf xs
      let joined := one.2.unionOf (one.1 :: ys)
      let all := s.unionOf (xs ++ ys)
      let later := joined.2.unionOf (xs ++ ys)
      one.2.membersOf one.1 = (xs.flatMap s.membersOf).eraseDups ∧
        joined.2.membersOf joined.1 = all.2.membersOf all.1 ∧
        later.2.membersOf joined.1 = later.2.membersOf later.1 := by
  have hplural := h.plural
  refine ⟨fun id members hid => ⟨hplural.several id members hid, hplural.nodup id members hid,
    hplural.single id members hid⟩, fun xs ys hxs hys hne => ?_⟩
  intro one joined all later
  obtain ⟨hin, hone⟩ := hplural.membersOf_unionOf_later (.refl s) hxs hne
  have hwithin : s.Within one.2 := (keeping_unionOf xs s).get?
  have hone_plural : one.2.Plural := hplural.unionOf hxs
  -- The union of the union with the others has the members of all of them.
  have hcons : one.2.HasAll (one.1 :: ys) := hasAll_cons.2 ⟨hin, hwithin.hasAll hys⟩
  obtain ⟨hin', hjoined⟩ :=
    hone_plural.membersOf_unionOf_later (.refl _) hcons (List.cons_ne_nil _ _)
  have hmembers : joined.2.membersOf joined.1 = ((xs ++ ys).flatMap s.membersOf).eraseDups :=
    calc joined.2.membersOf joined.1
        = (one.2.membersOf one.1 ++ ys.flatMap one.2.membersOf).eraseDups := by
          rw [← List.flatMap_cons]
          exact hjoined
      _ = ((xs.flatMap s.membersOf).eraseDups ++ ys.flatMap s.membersOf).eraseDups := by
          rw [hwithin.flatMap_membersOf hys]
          exact congrArg (fun front => (front ++ ys.flatMap s.membersOf).eraseDups) hone
      _ = ((xs ++ ys).flatMap s.membersOf).eraseDups := by
          rw [eraseDups_append_eraseDups, List.flatMap_append]
  -- So has the union of all, be it made in the store before or after.
  have hall : s.HasAll (xs ++ ys) := hasAll_append.2 ⟨hxs, hys⟩
  have hall_ne : xs ++ ys ≠ [] := List.append_ne_nil_of_left_ne_nil hne ys
  have hwithin' : s.Within joined.2 := hwithin.trans (keeping_unionOf _ one.2).get?
  have hlater : joined.2.Within later.2 := (keeping_unionOf _ joined.2).get?
  refine ⟨hone, hmembers.trans (hplural.membersOf_unionOf_later (.refl s) hall hall_ne).2.symm, ?_⟩
  calc later.2.membersOf joined.1 = joined.2.membersOf joined.1 := hlater.membersOf_eq hin'
    _ = ((xs ++ ys).flatMap s.membersOf).eraseDups := hmembers
    _ = later.2.membersOf later.1 :=
      ((hone_plural.unionOf hcons).membersOf_unionOf_later hwithin' hall hall_ne).2.symm

/-- A union of a union is made of its members. -/
theorem BuiltBy.unions_nested :
    let s := (TypeStore.initial.unionOf [.any, .noneValue]).2
    let one := s.unionOf [⟨6⟩, .any, .unknown]
    let joined := one.2.unionOf [one.1, .noneValue, .never]
    let all := s.unionOf [⟨6⟩, .any, .unknown, .noneValue, .never]
    BuiltBy StoreCall.IsProper s ∧ s.shape? ⟨6⟩ = some (.union [.any, .noneValue]) ∧
      s.HasAll [⟨6⟩, .any, .unknown] ∧ s.HasAll [.noneValue, .never] ∧
      one.2.membersOf one.1 = [.any, .noneValue, .unknown] ∧
      joined.2.membersOf joined.1 = all.2.membersOf all.1 ∧
      all.2.membersOf all.1 = [.any, .noneValue, .unknown, .never] := by
  intro s one joined all
  have hbuilt : BuiltBy StoreCall.IsProper s :=
    .call .initial (.unionOf [.any, .noneValue]) (hasAll_of_all rfl)
  have hxs : s.HasAll [⟨6⟩, .any, .unknown] := hasAll_of_all rfl
  have hys : s.HasAll [.noneValue, .never] := hasAll_of_all rfl
  obtain ⟨hone, hjoined, -⟩ := (BuiltBy.unions hbuilt).2 _ _ hxs hys (List.cons_ne_nil _ _)
  exact ⟨hbuilt, rfl, hxs, hys, hone.trans (by decide), hjoined, by decide⟩

end TypeStore

end TypeProbe
