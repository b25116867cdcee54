import Mathlib.Data.List.Forall2
import TypeProbe.Proofs.Types.Keeping
import TypeProbe.Proofs.Types.Made

/-!
# What unions and widened types cover

A type covers another one (`TypeStore.Covers`) if each of the types that the other one is made of as
a union (`TypeStore.Leaf`) is one of its own, or would be without its literal value. A union covers
every type that it is made of (`covers_unionOf`), and a widened type the one that it comes from
(`covers_widen`). Of a type that is vague (`TypeStore.IsVague`) nothing is known in some part; what
covers it is vague as well.
-/

namespace TypeProbe.TypeStore

/-- A type is no union and is another one, or one of the members of that at any depth. -/
inductive Leaf (s : TypeStore) : TypeId → TypeId → Prop
  /-- A type that is no union. -/
  | self {id : TypeId} {shape : TypeShape} (hshape : s.shape? id = some shape)
    (hunion : ∀ members, shape ≠ .union members) : Leaf s id id
  /-- A leaf of a member. -/
  | member {id part leaf : TypeId} {members : List TypeId}
    (hshape : s.shape? id = some (.union members)) (hpart : part ∈ members)
    (hleaf : Leaf s part leaf) : Leaf s id leaf

/-- A type is another one, or the plain one of its class if that has a literal value. -/
def Widens (s : TypeStore) (narrow wide : TypeId) : Prop :=
  wide = narrow ∨ ∃ d arguments value,
    s.shape? narrow = some (.nominal d arguments (some value)) ∧ s.IsNominal wide d none none

/-- All leaves of a type are leaves of another one, up to literal values. -/
def Covers (s : TypeStore) (wide narrow : TypeId) : Prop :=
  ∀ leaf, s.Leaf narrow leaf → ∃ cover, s.Leaf wide cover ∧ s.Widens leaf cover

/-- Nothing is known of a type, or of one that it is made of. -/
def IsVague (s : TypeStore) (id : TypeId) : Prop :=
  ∃ leaf, s.Leaf id leaf ∧ s.isUnknown leaf = true

variable {s s' : TypeStore} {id t u x : TypeId} {ids : List TypeId}

/-- Types are made of the same later on. -/
theorem Within.shape? {shape : TypeShape} (hw : s.Within s') (h : s.shape? id = some shape) :
    s'.shape? id = some shape := by
  obtain ⟨t, ht, rfl⟩ := Option.map_eq_some_iff.1 h
  exact shape?_of_get? (hw _ _ ht)

/-- Types were made of the same before. -/
theorem Within.shape?_eq (hw : s.Within s') (hid : id.In s) : s'.shape? id = s.shape? id := by
  rw [TypeStore.shape?, hw.get?_eq hid]
  rfl

namespace Leaf

/-- Leaves stay. -/
theorem mono (h : s.Leaf id t) (hw : s.Within s') : s'.Leaf id t := by
  induction h with
  | self hshape hunion => exact .self (hw.shape? hshape) hunion
  | member hshape hpart _ ih => exact .member (hw.shape? hshape) hpart ih

/-- A type that was there had the same leaves. -/
theorem of_within (h : s'.Leaf id t) (hs : s.Sound) (hid : id.In s) (hw : s.Within s') :
    s.Leaf id t := by
  induction h with
  | self hshape hunion => exact .self ((hw.shape?_eq hid).symm.trans hshape) hunion
  | member hshape hpart _ ih =>
    have hold := (hw.shape?_eq hid).symm.trans hshape
    exact .member hold hpart (ih (hs.hasAll_parts hold _ hpart))

/-- The leaves of a type are those of what it is made of as a union. -/
theorem exists_mem_membersOf (h : s'.Leaf id t) (hshape : s'.shape? id = s.shape? id) :
    ∃ part ∈ s.membersOf id, s'.Leaf part t := by
  unfold membersOf
  cases h with
  | self hself hunion =>
    rw [hshape] at hself
    rw [hself]
    refine ⟨id, ?_, .self (hshape.trans hself) hunion⟩
    split
    · rename_i heq
      exact absurd (Option.some.inj heq) (hunion _)
    · exact List.mem_singleton_self id
  | member hmember hpart hleaf =>
    rw [hshape] at hmember
    rw [hmember]
    exact ⟨_, hpart, hleaf⟩

end Leaf

/-- Types that are widened are so later on. -/
theorem Widens.mono (h : s.Widens t u) (hw : s.Within s') : s'.Widens t u := by
  rcases h with rfl | ⟨d, arguments, value, hshape, hwide⟩
  · exact .inl rfl
  · exact .inr ⟨d, arguments, value, hw.shape? hshape, hwide.mono hw⟩

/-- The plain type of a class is not widened any further. -/
theorem Widens.trans (h : s.Widens t u) (h' : s.Widens u x) : s.Widens t x := by
  rcases h with rfl | ⟨d, arguments, value, hshape, hwide⟩
  · exact h'
  · rcases h' with rfl | ⟨d', arguments', value', hshape', -⟩
    · exact .inr ⟨d, arguments, value, hshape, hwide⟩
    · cases (shape?_of_get? hwide).symm.trans hshape'

namespace Covers

/-- A type covers itself. -/
theorem refl (id : TypeId) : s.Covers id id := fun leaf h => ⟨leaf, h, .inl rfl⟩

/-- What covers a type covers what that covers. -/
theorem trans (h : s.Covers t u) (h' : s.Covers u x) : s.Covers t x := by
  intro leaf hleaf
  obtain ⟨middle, hmiddle, hwidens⟩ := h' leaf hleaf
  obtain ⟨cover, hcover, hwidens'⟩ := h middle hmiddle
  exact ⟨cover, hcover, hwidens.trans hwidens'⟩

/-- A type that was there is covered later on by what covers it. -/
theorem mono (h : s.Covers t u) (hs : s.Sound) (hu : u.In s) (hw : s.Within s') :
    s'.Covers t u := by
  intro leaf hleaf
  obtain ⟨cover, hcover, hwidens⟩ := h leaf (hleaf.of_within hs hu hw)
  exact ⟨cover, hcover.mono hw, hwidens.mono hw⟩

/-- What covers a vague type is vague. -/
theorem isVague (h : s.Covers t u) (h' : s.IsVague u) : s.IsVague t := by
  obtain ⟨leaf, hleaf, hunknown⟩ := h'
  obtain ⟨cover, hcover, rfl | ⟨d, arguments, value, hshape, -⟩⟩ := h leaf hleaf
  · exact ⟨cover, hcover, hunknown⟩
  · rw [isUnknown, hshape] at hunknown
    cases hunknown

end Covers

/-- What is unknown, and there, is vague. -/
theorem isVague_of_isUnknown (ht : t.In s) (h : s.isUnknown t = true) : s.IsVague t := by
  rcases get?_of_isUnknown h with hnone | ⟨flags, incomplete, hsome⟩
  · exact absurd (Array.getElem?_eq_none_iff.1 hnone) (Nat.not_le_of_lt ht)
  · exact ⟨t, .self (shape?_of_get? hsome) nofun, h⟩

/-! ## Unions and widening -/

/-- Lists that correspond have an element in the other one for each element. -/
theorem exists_mem_of_forall₂ {α β : Type} {R : α → β → Prop} {as : List α} {bs : List β}
    (h : List.Forall₂ R as bs) :
    (∀ a ∈ as, ∃ b ∈ bs, R a b) ∧ ∀ b ∈ bs, ∃ a ∈ as, R a b := by
  induction h with
  | nil => exact ⟨nofun, nofun⟩
  | @cons a b as bs hab _ ih =>
    refine ⟨List.forall_mem_cons.2 ⟨⟨b, List.mem_cons_self, hab⟩, fun a' ha' => ?_⟩,
      List.forall_mem_cons.2 ⟨⟨a, List.mem_cons_self, hab⟩, fun b' hb' => ?_⟩⟩
    · obtain ⟨b', hb', hR⟩ := ih.1 a' ha'
      exact ⟨b', List.mem_cons_of_mem _ hb', hR⟩
    · obtain ⟨a', ha', hR⟩ := ih.2 b' hb'
      exact ⟨a', List.mem_cons_of_mem _ ha', hR⟩

/-- A function for each element of a list, of which something is known that stays. -/
theorem Works.mapM_forall₂ {α β : Type} {work : α → StateM TypeStore β}
    {post : α → β → TypeStore → Prop} {as : List α}
    (hmono : ∀ {a b s s'}, s.Sound → s.Grows s' → post a b s → post a b s')
    (h : ∀ a ∈ as, ∀ s', s.Grows s' → s'.Works (work a) (post a)) :
    s.Works (as.mapM work) fun bs s' => List.Forall₂ (post · · s') as bs := by
  induction as generalizing s with
  | nil => exact Works.ret fun _ => .nil
  | cons a as ih =>
    rw [List.mapM_cons]
    refine (h a List.mem_cons_self s (.refl s)).bind fun b s1 h1 hb => .intro fun hs1 => ?_
    refine (ih fun a ha s' hs' => h a (List.mem_cons_of_mem _ ha) s' (h1.trans hs')).bind
      fun bs s2 h2 hbs => ?_
    exact Works.ret fun _ => .cons (hmono hs1 h2 hb) hbs

/-- What is inserted where it is new is there. -/
theorem mem_foldl_insertNew_of_mem {α : Type} [BEq α] [LawfulBEq α] {a : α} (as : List α)
    {found : List α} (h : a ∈ found ∨ a ∈ as) : a ∈ as.foldl insertNew found := by
  induction as generalizing found with
  | nil => exact h.resolve_right List.not_mem_nil
  | cons b as ih =>
    have hkept : ∀ {a}, a ∈ found ∨ a = b → a ∈ insertNew found b := by
      intro a ha
      unfold insertNew
      split
      · rename_i hb
        rcases ha with ha | rfl
        · exact ha
        · exact List.contains_iff_mem.1 hb
      · exact List.mem_append.2 (ha.imp_right fun h => List.mem_singleton.2 h)
    refine ih ?_
    rcases h with hfound | hmem
    · exact .inl (hkept (.inl hfound))
    · exact (List.mem_cons.1 hmem).imp_left fun heq => hkept (.inr heq)

/-- A union covers every type that it is made of. -/
theorem covers_unionOf (hid : id ∈ ids) (hin : id.In s) :
    (s.unionOf ids).2.Covers (s.unionOf ids).1 id := by
  have hwithin : s.Within (s.unionOf ids).2 := (keeping_unionOf ids s).get?
  intro leaf hleaf
  obtain ⟨part, hpart, hleaf'⟩ := hleaf.exists_mem_membersOf (hwithin.shape?_eq hin)
  have hflat : part ∈ s.flatten ids :=
    mem_foldl_insertNew_of_mem _ (.inr (List.mem_flatMap.2 ⟨id, hid, hpart⟩))
  refine ⟨leaf, ?_, .inl rfl⟩
  unfold unionOf at hleaf' ⊢
  match hmembers : s.flatten ids with
  | [] =>
    rw [hmembers] at hflat
    cases hflat
  | [only] =>
    rw [hmembers] at hflat hleaf'
    obtain rfl := List.mem_singleton.1 hflat
    exact hleaf'
  | first :: second :: rest =>
    rw [hmembers] at hflat hleaf'
    exact .member (shape?_of_get? ((get?_add _ _).trans (if_pos rfl))) hflat hleaf'

/-- A union of at least one type covers every type that it is made of. -/
theorem covers_unionOrUnknown (hid : id ∈ ids) (hin : id.In s) :
    (Values.unionOrUnknown ids s).2.Covers (Values.unionOrUnknown ids s).1 id := by
  have hsome : ids.isEmpty = false := by
    cases ids with
    | nil => cases hid
    | cons _ _ => rfl
  have heq : Values.unionOrUnknown ids s = s.unionOf ids := by
    rw [Values.unionOrUnknown, hsome]
    rfl
  rw [heq]
  exact covers_unionOf hid hin

/-- A widened type covers the one that it comes from. -/
theorem covers_widenAt (fuel : Nat) (hid : id.In s) :
    s.Works (widenAt fuel id) fun t s' => t.In s' ∧ s'.Covers t id := by
  induction fuel generalizing s id with
  | zero => exact .ret fun _ => ⟨hid, .refl id⟩
  | succ fuel ih =>
    refine .intro fun h => .get ?_
    split
    · rename_i d arguments value hshape
      have hd : d.In s := h.detail id _ hshape
      refine (works_instanceOf hd).weaken fun t s' _ hgrows ht => ⟨in_of_get? ht, ?_⟩
      have hwithin : s.Within s' := hgrows.get?
      intro leaf hleaf
      have hshape' := hwithin.shape? hshape
      cases hleaf with
      | self => exact ⟨t, .self (shape?_of_get? ht) nofun, .inr ⟨d, arguments, value, hshape', ht⟩⟩
      | member hunion => cases hshape'.symm.trans hunion
    · rename_i members hshape
      have hparts := h.hasAll_parts hshape
      have hmembers : s.Works (members.mapM (widenAt fuel)) fun widened s' =>
          List.Forall₂ (fun member t => member.In s' ∧ t.In s' ∧ s'.Covers t member) members
            widened := by
        refine Works.mapM_forall₂ (fun hs hgrows ⟨hmember, ht, hcovers⟩ =>
          ⟨hmember.mono hgrows, ht.mono hgrows, hcovers.mono hs hmember hgrows.get?⟩)
          fun member hmember s' hs' => ?_
        have hin := (hparts member hmember).mono hs'
        exact (ih hin).weaken fun t s'' _ hgrows ht => ⟨hin.mono hgrows, ht⟩
      refine hmembers.bind fun widened s1 h1 hwidened => ?_
      split
      · exact .ret fun _ => ⟨hid.mono h1, .refl id⟩
      · obtain ⟨hcovered, horigin⟩ := exists_mem_of_forall₂ hwidened
        have hall : s1.HasAll widened := by
          intro t ht
          obtain ⟨member, -, -, hin, -⟩ := horigin t ht
          exact hin
        intro hs1
        obtain ⟨hs2, h2, hin⟩ := works_unionOf hall hs1
        refine ⟨hs2, h2, hin, fun leaf hleaf => ?_⟩
        have hwithin : s.Within (s1.unionOf widened).2 := (h1.trans h2).get?
        have hshape' := hwithin.shape? hshape
        cases hleaf with
        | self hself hunion => exact absurd (Option.some.inj (hself.symm.trans hshape')) (hunion _)
        | @member _ part _ _ hmember hpart hleaf =>
          cases hmember.symm.trans hshape'
          obtain ⟨t, ht, hpart', htin, hcovers⟩ := hcovered part hpart
          exact (covers_unionOf ht htin).trans (hcovers.mono hs1 hpart' h2.get?) leaf hleaf
    · exact .ret fun _ => ⟨hid, .refl id⟩

/-- A widened type covers the one that it comes from. -/
theorem covers_widen (hid : id.In s) :
    s.Works (widen id) fun t s' => t.In s' ∧ s'.Covers t id := covers_widenAt _ hid

/-- A widened type that was made covers the one that it comes from. -/
theorem Made.covers_widen (h : s'.Made [id] (widen id) t) : s'.Covers t id := by
  obtain ⟨s, hs, hids, rfl, hwithin⟩ := h
  have hid := (hasAll_cons.1 hids).1
  obtain ⟨hsound, hgrows, -, hcovers⟩ := TypeStore.covers_widen hid hs.sound
  exact hcovers.mono hsound (hid.mono hgrows) hwithin

/-- A union that was made of at least one type covers every type that it is made of. -/
theorem Made.covers_unionOrUnknown (h : s'.Made ids (Values.unionOrUnknown ids) t)
    (hid : id ∈ ids) : s'.Covers t id := by
  obtain ⟨s, hs, hids, rfl, hwithin⟩ := h
  obtain ⟨hsound, hgrows, -⟩ := Values.works_unionOrUnknown hids hs.sound
  have hcovers := TypeStore.covers_unionOrUnknown hid (hids id hid)
  exact hcovers.mono hsound ((hids id hid).mono hgrows) hwithin

end TypeProbe.TypeStore
