import TypeProbe.Proofs.Types.Unions

/-!
# Widening is a projection

Widening takes the type of one value to the plain type of its class, and a union to the union of its
widened members (`Flat.widen_projects`). It needs two things of a store. The plain type of a class's
values, once made, is the one that is found again (`TypeStore.Retains`), so what is widened member
by member stays the same handle later on (`TypeStore.IsWidened`). And no member of a union is a
union, so that the members of what is widened are the widened members, and widening them again finds
nothing to do.
-/

namespace TypeProbe.TypeStore

variable {s s' s'' : TypeStore} {id t : TypeId} {ids members widened : List TypeId} {d : ClassId}
  {n : Nat}

/-- A type has a literal value. -/
def IsLiteral (s : TypeStore) (id : TypeId) : Prop :=
  ∃ d arguments value, s.shape? id = some (.nominal d arguments (some value))

/-- A type that is no union becomes another one without its literal value: the plain one of its
class, which is kept, or itself. -/
inductive IsWidened (s : TypeStore) : TypeId → TypeId → Prop
  /-- A type with a literal value. -/
  | literal {id t : TypeId} {d : ClassId} {arguments : Option (List TypeId)} {value : LiteralValue}
    (hshape : s.shape? id = some (.nominal d arguments (some value)))
    (hkept : s.instances.lookup d = some t) : IsWidened s id t
  /-- A type without one. -/
  | plain {id : TypeId} (hsingle : s.IsSingle id) (hliteral : ¬s.IsLiteral id) : IsWidened s id id

/-! ## What is kept -/

/-- A store in which the types of another one have stayed, and the plain types of values that were
kept are kept. -/
structure Retains (s s' : TypeStore) : Prop where
  /-- The types stay. -/
  types : s.Within s'
  /-- What is kept for a class stays. -/
  instances : ∀ d t, s.instances.lookup d = some t → s'.instances.lookup d = some t

namespace Retains

/-- A store retains its own. -/
theorem refl (s : TypeStore) : s.Retains s := ⟨.refl s, fun _ _ h => h⟩

/-- What is retained twice is retained. -/
theorem trans (h : s.Retains s') (h' : s'.Retains s'') : s.Retains s'' :=
  ⟨h.types.trans h'.types, fun d t ht => h'.instances d t (h.instances d t ht)⟩

end Retains

/-- The plain type of the values of a class is kept from then on. -/
theorem retains_instanceOf (s : TypeStore) (d : ClassId) : s.Retains (s.instanceOf d).2 ∧
    (s.instanceOf d).2.instances.lookup d = some (s.instanceOf d).1 := by
  have hwithin : s.Within (s.instanceOf d).2 := (keeping_instanceOf d s).get?
  unfold instanceOf at hwithin ⊢
  split
  · rename_i id hid
    exact ⟨.refl s, hid⟩
  · rename_i hnone
    rw [hnone] at hwithin
    refine ⟨⟨hwithin, fun d' t ht => ?_⟩, List.lookup_cons_self⟩
    have hne : d' ≠ d := by
      rintro rfl
      cases hnone.symm.trans ht
    exact (lookup_cons_of_ne hne _ _).trans ht

/-- A union retains the store. -/
theorem retains_unionOf (s : TypeStore) (ids : List TypeId) : s.Retains (s.unionOf ids).2 :=
  ⟨(keeping_unionOf ids s).get?, fun _ _ ht => instances_unionOf s ids ▸ ht⟩

/-- What has a literal value later on had it before. -/
theorem IsLiteral.of_within (h : s'.IsLiteral id) (hid : id.In s) (hw : s.Within s') :
    s.IsLiteral id := by
  obtain ⟨d, arguments, value, hshape⟩ := h
  exact ⟨d, arguments, value, (hw.shape?_eq hid).symm.trans hshape⟩

namespace IsWidened

/-- What is widened stays so. -/
theorem mono (h : s.IsWidened id t) (hr : s.Retains s') : s'.IsWidened id t := by
  cases h with
  | literal hshape hkept => exact .literal (hr.types.shape? hshape) (hr.instances _ _ hkept)
  | plain hsingle hliteral =>
    exact .plain (hsingle.mono hr.types) fun h => hliteral (h.of_within hsingle.in_store hr.types)

/-- What is widened is no union and has no literal value. -/
theorem isSingle (h : s.IsWidened id t) (hs : s.WellKept) : s.IsSingle t ∧ ¬s.IsLiteral t := by
  cases h with
  | literal _ hkept =>
    have hplain := hs.instances _ _ (mem_of_lookup hkept)
    refine ⟨⟨_, hplain, nofun⟩, ?_⟩
    rintro ⟨d, arguments, value, hshape⟩
    cases hplain.symm.trans hshape
  | plain hsingle hliteral => exact ⟨hsingle, hliteral⟩

/-- A type is widened to what it has been widened to before, and nothing is made. -/
theorem widenAt_eq (h : s.IsWidened id t) (n : Nat) : widenAt (n + 1) id s = (t, s) := by
  rw [widenAt, get_bind_apply]
  cases h with
  | literal hshape hkept =>
    rw [hshape]
    show s.instanceOf _ = _
    rw [instanceOf, hkept]
  | plain hsingle hliteral =>
    obtain ⟨shape, hshape, hunion⟩ := hsingle
    rw [hshape]
    cases shape with
    | nominal d arguments literal =>
      cases literal with
      | none => rfl
      | some value => exact absurd ⟨_, _, _, hshape⟩ hliteral
    | union members => exact absurd rfl (hunion members)
    | _ => rfl

end IsWidened

/-! ## One type, and the members of a union -/

/-- A type that is no union is widened. -/
theorem widenAt_single (hs : s.WellKept) (h : s.IsSingle id) (n : Nat) :
    (widenAt (n + 1) id s).2.WellKept ∧ s.Retains (widenAt (n + 1) id s).2 ∧
      (widenAt (n + 1) id s).2.IsWidened id (widenAt (n + 1) id s).1 := by
  by_cases hliteral : s.IsLiteral id
  · obtain ⟨d, arguments, value, hshape⟩ := hliteral
    have heq : widenAt (n + 1) id s = s.instanceOf d := by
      rw [widenAt, get_bind_apply, hshape]
    obtain ⟨hretains, hkept⟩ := retains_instanceOf s d
    rw [heq]
    exact ⟨hs.instanceOf d, hretains, .literal (hretains.types.shape? hshape) hkept⟩
  · have hwidened : s.IsWidened id id := .plain h hliteral
    rw [hwidened.widenAt_eq n]
    exact ⟨hs, .refl s, hwidened⟩

/-- Types that are no unions are widened one after the other. -/
theorem mapM_widenAt (hs : s.WellKept) (h : ∀ part ∈ members, s.IsSingle part) (n : Nat) :
    (members.mapM (widenAt (n + 1)) s).2.WellKept ∧
      s.Retains (members.mapM (widenAt (n + 1)) s).2 ∧
      List.Forall₂ (members.mapM (widenAt (n + 1)) s).2.IsWidened members
        (members.mapM (widenAt (n + 1)) s).1 := by
  induction members generalizing s with
  | nil => exact ⟨hs, .refl s, .nil⟩
  | cons part members ih =>
    obtain ⟨hs₁, hr₁, hpart⟩ := widenAt_single hs (h part List.mem_cons_self) n
    have hrest : ∀ part' ∈ members, (widenAt (n + 1) part s).2.IsSingle part' :=
      fun part' hmem => (h part' (List.mem_cons_of_mem _ hmem)).mono hr₁.types
    obtain ⟨hs₂, hr₂, hmembers⟩ := ih hs₁ hrest
    rw [List.mapM_cons]
    exact ⟨hs₂, hr₁.trans hr₂, .cons (hpart.mono hr₂) hmembers⟩

/-- Types are widened to what they have been widened to before, and nothing is made. -/
theorem mapM_widenAt_eq (h : List.Forall₂ s.IsWidened members widened) (n : Nat) :
    members.mapM (widenAt (n + 1)) s = (widened, s) :=
  mapM_eq_of_forall₂ (h.imp fun _ _ hpart => hpart.widenAt_eq n)

/-- Types are widened one by one to what they have been widened to before. -/
theorem map_widen_eq (h : List.Forall₂ s.IsWidened members widened) :
    (members.map fun part => (widen part s).1) = widened := by
  induction h with
  | nil => rfl
  | cons hpart _ ih => rw [List.map_cons, ih, widen, hpart.widenAt_eq]

/-- The members of a union are widened one after the other; if that changes one of them, the widened
members are made a union. -/
theorem widen_union (hs : s.WellKept) (h : s.shape? id = some (.union members)) :
    ∃ n, widen id s =
      let widened := members.mapM (widenAt (n + 1)) s
      if widened.1 = members then (id, widened.2) else widened.2.unionOf widened.1 := by
  obtain ⟨_ | n⟩ := id
  · cases hs.unbound.symm.trans h
  · refine ⟨n, ?_⟩
    rw [widen, widenAt, get_bind_apply, h]
    dsimp only
    rw [bind_apply]
    split <;> rfl

/-- A type whose members have no literal values, nor are unions, is widened to itself. -/
theorem widen_eq_self (hs : s.WellKept)
    (h : ∀ part ∈ s.membersOf id, s.IsSingle part ∧ ¬s.IsLiteral part) : widen id s = (id, s) := by
  have hwidened : ∀ part ∈ s.membersOf id, s.IsWidened part part :=
    fun part hpart => .plain (h part hpart).1 (h part hpart).2
  by_cases hunion : ∃ members, s.shape? id = some (.union members)
  · obtain ⟨members, hunion⟩ := hunion
    rw [membersOf_union hunion] at hwidened
    obtain ⟨n, heq⟩ := widen_union hs hunion
    rw [heq, mapM_widenAt_eq (List.forall₂_same.2 hwidened) n]
    exact if_pos rfl
  · rw [membersOf_of_ne fun members heq => hunion ⟨members, heq⟩] at hwidened
    exact (hwidened id (List.mem_singleton_self id)).widenAt_eq _

/-- A type is another one without literal values: its members are the widened members of that, each
once. -/
structure IsProjection (s : TypeStore) (members : List TypeId) (t : TypeId) : Prop where
  /-- The store is well kept. -/
  wellKept : s.WellKept
  /-- No union is left among the members, and no literal value. -/
  clean : ∀ part ∈ s.membersOf t, s.IsSingle part ∧ ¬s.IsLiteral part
  /-- The members are the widened ones. -/
  members : ∃ widened, List.Forall₂ s.IsWidened members widened ∧ s.membersOf t = widened.eraseDups

/-- A union of which a member has a literal value becomes the union of the widened members. -/
theorem isProjection_of_literal (hs : s.WellKept) (hunion : s.shape? id = some (.union members))
    (hsingle : ∀ part ∈ members, s.IsSingle part) (hliteral : ∃ part ∈ members, s.IsLiteral part) :
    (widen id s).2.IsProjection members (widen id s).1 := by
  obtain ⟨n, heq⟩ := widen_union hs hunion
  obtain ⟨hs₁, hr₁, hwidened⟩ := mapM_widenAt hs hsingle n
  dsimp only at heq
  generalize members.mapM (widenAt (n + 1)) s = r at heq hs₁ hr₁ hwidened
  obtain ⟨widened, s₁⟩ := r
  dsimp only at heq hs₁ hr₁ hwidened
  obtain ⟨part, hpart, hvalue⟩ := hliteral
  -- The member with a literal value has become another one.
  have hne : widened ≠ members := by
    rintro rfl
    obtain ⟨d, arguments, value, hshape⟩ := hvalue
    exact ((List.forall₂_same.1 hwidened part hpart).isSingle hs₁).2
      ⟨d, arguments, value, hr₁.types.shape? hshape⟩
  rw [if_neg hne] at heq
  obtain ⟨hsome, horigin⟩ := exists_mem_of_forall₂ hwidened
  have hclean : ∀ t ∈ widened, s₁.IsSingle t ∧ ¬s₁.IsLiteral t := by
    intro t ht
    obtain ⟨member, -, hmember⟩ := horigin t ht
    exact hmember.isSingle hs₁
  have hflat := flatMap_membersOf_of_single fun t ht => (hclean t ht).1
  obtain ⟨wide, hwide, -⟩ := hsome part hpart
  obtain ⟨-, hmembers⟩ := membersOf_unionOf (fun t ht => (hclean t ht).1.in_store)
    (hflat.symm ▸ List.ne_nil_of_mem hwide) (hflat.symm ▸ fun t ht => (hclean t ht).1)
  rw [hflat] at hmembers
  have hr₂ := retains_unionOf s₁ widened
  rw [heq]
  refine ⟨hs₁.unionOf widened, fun t ht => ?_, widened, hwidened.imp fun _ _ h => h.mono hr₂,
    hmembers⟩
  rw [hmembers, List.mem_eraseDups] at ht
  obtain ⟨hone, hplain⟩ := hclean t ht
  exact ⟨hone.mono hr₂.types, fun h => hplain (h.of_within hone.in_store hr₂.types)⟩

/-- A type of a store with flat unions becomes one without literal values. -/
theorem Flat.isProjection_widen (h : s.Flat) (hs : s.WellKept) (hid : id.In s) :
    (widen id s).2.IsProjection (s.membersOf id) (widen id s).1 := by
  have hsingle := fun part => h.isSingle_of_mem (t := part) hid
  by_cases hliteral : ∃ part ∈ s.membersOf id, s.IsLiteral part
  · obtain hone | ⟨members, hunion⟩ := isSingle_or_union hid
    · obtain ⟨hs', -, hwidened⟩ := widenAt_single hs hone id.index
      have hclean := hwidened.isSingle hs'
      have hmembers := hclean.1.membersOf_eq
      refine ⟨hs', fun part hpart => ?_, [(widen id s).1], ?_, ?_⟩
      · rw [widen, hmembers, List.mem_singleton] at hpart
        exact hpart ▸ hclean
      · rw [hone.membersOf_eq]
        exact .cons hwidened .nil
      · rw [widen, hmembers, eraseDups_of_nodup (List.nodup_singleton _)]
    · rw [membersOf_union hunion] at hsingle hliteral ⊢
      exact isProjection_of_literal hs hunion hsingle hliteral
  -- Without literal values there is nothing to do.
  · have hclean : ∀ part ∈ s.membersOf id, s.IsSingle part ∧ ¬s.IsLiteral part :=
      fun part hpart => ⟨hsingle part hpart, fun hvalue => hliteral ⟨part, hpart, hvalue⟩⟩
    have hnodup : (s.membersOf id).Nodup := by
      obtain hone | ⟨members, hunion⟩ := isSingle_or_union hid
      · exact hone.membersOf_eq ▸ List.nodup_singleton id
      · exact membersOf_union hunion ▸ h.nodup id members hunion
    rw [widen_eq_self hs hclean]
    exact ⟨hs, hclean, s.membersOf id,
      List.forall₂_same.2 fun part hpart => .plain (hclean part hpart).1 (hclean part hpart).2,
      (eraseDups_of_nodup hnodup).symm⟩

/-- In a well-kept store with flat unions, widening leaves no literal value, neither to the type nor
to a member of it, and widening again gives the same handle and changes nothing. A type without
literal values is given back as it is, a type with one becomes the plain type that is kept for its
class, and the members of a widened union are the widened members, each once and in order. -/
theorem Flat.widen_projects (h : s.Flat) (hs : s.WellKept) (hid : id.In s) :
    let wide := widen id s
    (¬wide.2.IsLiteral wide.1 ∧ ∀ members, wide.2.shape? wide.1 = some (.union members) →
      ∀ part ∈ members, ¬wide.2.IsLiteral part) ∧
    widen wide.1 wide.2 = wide ∧
    ((∀ part ∈ s.membersOf id, ¬s.IsLiteral part) → wide = (id, s)) ∧
    (∀ d arguments value, s.shape? id = some (.nominal d arguments (some value)) →
      wide.2.shape? wide.1 = some (.nominal d none none) ∧
        wide.2.instances.lookup d = some wide.1) ∧
    ∀ members, s.shape? id = some (.union members) →
      wide.2.membersOf wide.1 = (members.map fun part => (widen part wide.2).1).eraseDups := by
  intro wide
  obtain ⟨hkept, hclean, widened, hwidened, hmembers⟩ := h.isProjection_widen hs hid
  refine ⟨⟨fun hliteral => ?_, fun members hunion part hpart => ?_⟩, widen_eq_self hkept hclean,
    fun hnone => ?_, fun d arguments value hshape => ?_, fun members hunion => ?_⟩
  · obtain ⟨d, arguments, value, hshape⟩ := hliteral
    have hself : wide.2.membersOf wide.1 = [wide.1] :=
      membersOf_of_ne fun members hunion => by cases hshape.symm.trans hunion
    exact (hclean wide.1 (hself ▸ List.mem_cons_self)).2 ⟨d, arguments, value, hshape⟩
  · exact (hclean part (membersOf_union hunion ▸ hpart)).2
  · exact widen_eq_self hs fun part hpart => ⟨h.isSingle_of_mem hid hpart, hnone part hpart⟩
  · have heq : wide = s.instanceOf d := by
      show widen id s = _
      rw [widen, widenAt, get_bind_apply, hshape]
    have hlookup := (retains_instanceOf s d).2
    rw [← heq] at hlookup
    exact ⟨hkept.instances d wide.1 (mem_of_lookup hlookup), hlookup⟩
  · rw [membersOf_union hunion] at hwidened
    rw [map_widen_eq hwidened]
    exact hmembers

/-- Two literals of one class among the members of a union become one member. -/
theorem Flat.widen_projects_literals :
    let s := [StoreCall.addClass (.named "int" "builtins" ⟨0⟩), .literal ⟨0⟩ (.int 3),
      .literal ⟨0⟩ (.int 4), .unionOf [⟨6⟩, .noneValue, ⟨7⟩]].foldl StoreCall.run .initial
    let wide := widen ⟨8⟩ s
    s.Flat ∧ s.WellKept ∧ TypeId.In ⟨8⟩ s ∧
      s.shape? ⟨8⟩ = some (.union [⟨6⟩, .noneValue, ⟨7⟩]) ∧
      wide.2.membersOf wide.1 = [⟨9⟩, .noneValue] ∧
      wide.2.shape? ⟨9⟩ = some (.nominal ⟨0⟩ none none) ∧ widen wide.1 wide.2 = wide := by
  intro s wide
  let allowed (s : TypeStore) (call : StoreCall) := call.IsProper s ∧ call.LeavesShapes s
  have hclass : BuiltBy allowed _ :=
    .call .initial (.addClass (.named "int" "builtins" ⟨0⟩)) ⟨trivial, trivial⟩
  have hthree := hclass.call (.literal ⟨0⟩ (.int 3)) ⟨trivial, trivial⟩
  have hfour := hthree.call (.literal ⟨0⟩ (.int 4)) ⟨trivial, trivial⟩
  have hbuilt : BuiltBy allowed s :=
    hfour.call (.unionOf [⟨6⟩, .noneValue, ⟨7⟩]) ⟨hasAll_of_all rfl, trivial⟩
  have hflat : s.Flat := (hbuilt.mono fun _ _ h => h.1).plural.toFlat
  have hkept : s.WellKept := (hbuilt.mono fun _ _ h => h.2).wellKept
  have hid : TypeId.In ⟨8⟩ s := show 8 < s.types.size by decide
  obtain ⟨-, hagain, -, -, hmembers⟩ := Flat.widen_projects hflat hkept hid
  exact ⟨hflat, hkept, hid, rfl, (hmembers _ rfl).trans (by decide), by decide, hagain⟩

end TypeProbe.TypeStore
