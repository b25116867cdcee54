import TypeProbe.Proofs.Inference.Completion

/-!
# Classes among their own ancestors

The order of the ancestors of a class is merged from those of its bases when its arguments have been
worked out (`TypeStore.Merged`). A base may be the class itself, or one that is still being worked
out, which has no order yet and so comes alone. The types and orders that have been merged stay as
they are, so in every store that a checker comes to all orders are merged ones
(`Checker.Reached.merged`).

What a merge gives is known from `Linearization`: the class comes first, and behind it nothing comes
twice. But nothing keeps the class itself from coming again, where it stands in an order of its
bases and may be taken from it (`Checker.ancestors_nodup_iff`). A class that is not among its own
ancestors comes once.
-/

namespace TypeProbe

open Linearization

/-! ## Merged orders -/

namespace TypeStore

variable {s s' : TypeStore} {base type : TypeId} {types : List TypeId}

section Stay

variable (hget : ∀ id t, s.get? id = some t → s'.get? id = some t)
include hget

/-- The class of a type stays where types stay. -/
theorem classIdOf?_eq (htype : type.In s) : s'.classIdOf? type = s.classIdOf? type := by
  have hsome : s.get? type = some s.types[type.index] := Array.getElem?_eq_getElem htype
  rw [classIdOf?, classIdOf?, hget _ _ hsome, hsome]

/-- Keys stay where types stay. -/
theorem map_classKey_eq (h : s.HasAll types) : types.map s'.classKey = types.map s.classKey :=
  List.map_congr_left fun t ht => by rw [classKey, classKey, classIdOf?_eq hget (h t ht)]

/-- Handles stay handles where types stay. -/
theorem HasAll.of_get? (h : s.HasAll types) : s'.HasAll types := fun t ht =>
  in_of_get? (hget t _ (Array.getElem?_eq_getElem (h t ht)))

/-- Where types and orders stay, a base has the order that it had, or had none. -/
theorem ancestry_eq (hmro : ∀ d c, s.class? d = some c → c.mro ≠ [] →
    ∃ c', s'.class? d = some c' ∧ c'.mro = c.mro) (base : TypeId) :
    s.ancestry base = [base] ∨ s.ancestry base = s'.ancestry base := by
  unfold ancestry
  cases hc : s.classOf? base with
  | none => exact .inl rfl
  | some c =>
    obtain ⟨d, hd, hclass⟩ := Option.bind_eq_some_iff.1 hc
    have hin : base.In s := by
      obtain ⟨t, ht, -⟩ := Option.bind_eq_some_iff.1 hd
      exact in_of_get? ht
    by_cases hnone : c.mro = []
    · left
      simp only [hnone, List.tail_nil]
    · right
      obtain ⟨c', hc', hsame⟩ := hmro d c hclass hnone
      have hclass' : s'.classOf? base = some c' := by
        rw [classOf?, classIdOf?_eq hget hin, hd, Option.bind_some, hc']
      simp only [hclass', hsame]

end Stay

/-- The order of the ancestors of a class is merged from orders of its bases: the order that a base
has, or the base alone. -/
structure Merged (s : TypeStore) (d : ClassId) (k : ClassCore) (orders : List (List TypeId)) :
    Prop where
  /-- The bases and ancestors are there. -/
  types : s.HasAll (k.bases ++ k.mro)
  /-- What is in the orders is there. -/
  ordered : ∀ order ∈ orders, s.HasAll order
  /-- The orders are those of the bases. -/
  bases : List.Forall₂ (fun base order => order = [base] ∨ order = s.ancestry base) k.bases orders
  /-- They are merged behind the class. -/
  mro : k.mro.map s.classKey =
    merge id (.inl d) ((orders ++ [k.bases]).map (List.map s.classKey))

namespace Merged

variable {d : ClassId} {k k' : ClassCore} {orders : List (List TypeId)}

/-- Only the bases and ancestors matter. -/
theorem congr (h : s.Merged d k orders) (hbases : k'.bases = k.bases) (hmro : k'.mro = k.mro) :
    s.Merged d k' orders := by
  obtain ⟨htypes, hordered, hfrom, hmerge⟩ := h
  refine ⟨?_, hordered, ?_, ?_⟩
  · rwa [hbases, hmro]
  · rwa [hbases]
  · rwa [hbases, hmro]

/-- What is merged comes from the orders that the bases have. -/
theorem exists_mem_ancestry (h : s.Merged d k orders) {key : ClassId ⊕ TypeId}
    (hkey : key ∈ ((orders ++ [k.bases]).map (List.map s.classKey)).flatten) :
    ∃ base ∈ k.bases, key ∈ (s.ancestry base).map s.classKey := by
  have hbase : ∀ base ∈ k.bases, s.classKey base ∈ (s.ancestry base).map s.classKey :=
    fun base _ => List.mem_map_of_mem (s.mem_ancestry base)
  obtain ⟨_, hmem, hkey⟩ := List.mem_flatten.1 hkey
  obtain ⟨order, horder, rfl⟩ := List.mem_map.1 hmem
  rcases List.mem_append.1 horder with horder | horder
  · obtain ⟨i, hi, rfl⟩ := List.mem_iff_getElem.1 horder
    have hi' : i < k.bases.length := h.bases.length_eq ▸ hi
    refine ⟨k.bases[i], List.getElem_mem hi', ?_⟩
    rcases h.bases.get hi' hi with halone | hown
    · rw [show orders[i] = [k.bases[i]] from halone, List.map_singleton, List.mem_singleton] at hkey
      exact hkey ▸ hbase _ (List.getElem_mem hi')
    · rwa [show orders[i] = s.ancestry k.bases[i] from hown] at hkey
  · rw [List.mem_singleton.1 horder] at hkey
    obtain ⟨base, hmem, rfl⟩ := List.mem_map.1 hkey
    exact ⟨base, hmem, hbase base hmem⟩

/-- An order that has been merged remains merged where types and orders stay. -/
theorem mono (h : s.Merged d k orders) (hget : ∀ id t, s.get? id = some t → s'.get? id = some t)
    (hmro : ∀ d c, s.class? d = some c → c.mro ≠ [] →
      ∃ c', s'.class? d = some c' ∧ c'.mro = c.mro) : s'.Merged d k orders := by
  obtain ⟨hbases, hancestors⟩ := hasAll_append.1 h.types
  refine ⟨h.types.of_get? hget, fun order ho => (h.ordered order ho).of_get? hget,
    h.bases.imp fun base order horder => ?_, ?_⟩
  · rcases horder with horder | rfl
    · exact .inl horder
    · exact ancestry_eq hget hmro base
  · have hkeys : ∀ order ∈ orders ++ [k.bases], order.map s'.classKey = order.map s.classKey := by
      refine List.forall_mem_append.2 ⟨fun order ho => ?_, List.forall_mem_singleton.2 ?_⟩
      · exact map_classKey_eq hget (h.ordered order ho)
      · exact map_classKey_eq hget hbases
    rw [map_classKey_eq hget hancestors, h.mro, List.map_congr_left hkeys]

end Merged

/-- The order of a base is there. -/
theorem Sound.hasAll_ancestry (hs : s.Sound) (hbase : base.In s) : s.HasAll (s.ancestry base) := by
  unfold ancestry
  split
  · rename_i c hc
    refine hasAll_cons.2 ⟨hbase, fun t ht => hs.hasAll_classOf hc t ?_⟩
    simp [ClassDetail.types, List.mem_of_mem_tail ht]
  · exact hasAll_cons.2 ⟨hbase, hasAll_nil⟩

/-- The bases and ancestors of a class are there. -/
theorem Sound.hasAll_core (hs : s.Sound) {d : ClassId} {c : ClassDetail}
    (hc : s.class? d = some c) : s.HasAll (c.core.bases ++ c.core.mro) := by
  refine fun t ht => hs.classes d c hc t ?_
  rcases List.mem_append.1 ht with hbase | hancestor
  · simp [ClassDetail.types, show t ∈ c.bases from hbase]
  · simp [ClassDetail.types, show t ∈ c.mro from hancestor]

/-- An order may be merged from those that the bases have. -/
theorem Sound.merged (hs : s.Sound) {d : ClassId} {k : ClassCore}
    (htypes : s.HasAll (k.bases ++ k.mro))
    (hmro : k.mro.map s.classKey = merge id (.inl d) (s.orders k.bases)) :
    s.Merged d k (k.bases.map s.ancestry) where
  types := htypes
  ordered order ho := by
    obtain ⟨base, hbase, rfl⟩ := List.mem_map.1 ho
    exact hs.hasAll_ancestry ((hasAll_append.1 htypes).1 base hbase)
  bases := List.forall₂_map_right_iff.2 (List.forall₂_same.2 fun base _ => .inr rfl)
  mro := hmro

/-- The order that a class gets is merged from those of its bases. -/
theorem Sound.merged_linearize (hs : s.Sound) {d : ClassId} (hkey : s.classKey type = .inl d)
    (htype : type.In s) (hbases : s.HasAll types) (k : ClassCore) (metaclass : TypeId) :
    s.Merged d (k.withHeritage types (s.linearize type types) metaclass)
      (types.map s.ancestry) := by
  refine hs.merged (hasAll_append.2 ⟨hbases, hs.hasAll_linearize htype hbases⟩) ?_
  rw [← hkey]
  exact map_linearize s type types

end TypeStore

open TypeStore

/-- Orders stay merged where types and classes stay. -/
theorem Memory.Completes.merged {m m' : Memory} (h : m.Completes m') {d : ClassId} {k : ClassCore}
    {orders : List (List TypeId)} (hk : m.store.Merged d k orders) :
    m'.store.Merged d k orders := by
  refine hk.mono h.get? fun d c hc _ => ?_
  obtain ⟨c', hc', hcore⟩ := Option.map_eq_some_iff.1 (h.core d c hc)
  exact ⟨c', hc', congrArg ClassCore.mro hcore⟩

/-- A memory that completes another one, and in which the orders of new classes have been
merged. -/
structure Memory.Merges (m m' : Memory) : Prop extends m.Completes m' where
  /-- The orders of new classes have been merged. -/
  merged : ∀ d c, m'.store.class? d = some c → m.store.class? d = none →
    ∃ orders, m'.store.Merged d c.core orders

namespace Memory.Merges

variable {m m' m'' : Memory}

/-- Where the orders of all classes have been merged, they stay so. -/
theorem all (h : m.Merges m')
    (hm : ∀ d c, m.store.class? d = some c → ∃ orders, m.store.Merged d c.core orders)
    (d : ClassId) (c : ClassDetail) (hc : m'.store.class? d = some c) :
    ∃ orders, m'.store.Merged d c.core orders := by
  cases hold : m.store.class? d with
  | none => exact h.merged d c hc hold
  | some c' =>
    obtain ⟨orders, horders⟩ := hm d c' hold
    have hcore := h.core d c' hold
    rw [hc, Option.map_some, Option.some_inj] at hcore
    exact ⟨orders, hcore ▸ h.toCompletes.merged horders⟩

/-- What is kept, with no new classes, has merged orders. -/
theorem of_keeps (h : m.Keeps m') : m.Merges m' where
  toCompletes := .of_keeps h
  merged d c hc hnone := by
    have hcore := h.store.core_class? d
    rw [hc, hnone] at hcore
    cases hcore

/-- Changes elsewhere leave the classes. -/
theorem of_eq (htypes : m'.store.types = m.store.types)
    (hclasses : m'.store.classes = m.store.classes)
    (hplain : m'.store.classTypes = m.store.classTypes) (hkept : m'.classes = m.classes) :
    m.Merges m' where
  toCompletes := .of_eq htypes hclasses hplain hkept
  merged d c hc hnone := by
    rw [TypeStore.class?, hclasses] at hc
    exact absurd (hc.symm.trans hnone) (by simp)

/-- What is merged twice is merged. -/
theorem trans (h : m.Merges m') (h' : m'.Merges m'') : m.Merges m'' where
  toCompletes := h.toCompletes.trans h'.toCompletes
  merged d c hc hnone := by
    cases hmiddle : m'.store.class? d with
    | none => exact h'.merged d c hc hmiddle
    | some c' =>
      obtain ⟨orders, horders⟩ := h.merged d c' hmiddle hnone
      have hcore := h'.core d c' hmiddle
      rw [hc, Option.map_some, Option.some_inj] at hcore
      exact ⟨orders, hcore ▸ h'.toCompletes.merged horders⟩

end Memory.Merges

instance : Lenient Memory.Merges where
  keeps := .of_keeps
  trans := .trans

/-- A memory that completes another one but for one new class, and in which the orders of new
classes have been merged, that of the one class if it has any. -/
structure Memory.Orders (detail : ClassId) (k : ClassCore) (type : TypeId) (m m' : Memory) : Prop
    extends Memory.Begins detail k type m m' where
  /-- The orders of new classes have been merged. -/
  merged : ∀ d c, m'.store.class? d = some c → m.store.class? d = none →
    (d = detail ∧ c.mro = []) ∨ ∃ orders, m'.store.Merged d c.core orders

namespace Memory.Orders

variable {detail : ClassId} {k k' : ClassCore} {type : TypeId} {m m' m'' : Memory}

/-- What is merged while a class is being evaluated leaves that class. -/
theorem merges (h : Orders detail k type m m') (h' : m'.Merges m'') :
    Orders detail k type m m'' where
  toBegins := h.toBegins.completes h'.toCompletes
  merged d c hc hnone := by
    cases hmiddle : m'.store.class? d with
    | none => exact .inr (h'.merged d c hc hmiddle)
    | some c' =>
      have hcore := h'.core d c' hmiddle
      rw [hc, Option.map_some, Option.some_inj] at hcore
      refine (h.merged d c' hmiddle hnone).imp (And.imp_right fun hmro => ?_)
        (Exists.imp fun orders horders => hcore ▸ h'.toCompletes.merged horders)
      exact (congrArg ClassCore.mro hcore).trans hmro

/-- Something more is set of the class that is being evaluated: its order, as it has been merged, or
something else. -/
theorem modifyClass (h : Orders detail k type m m') {change : ClassDetail → ClassDetail}
    (hchange : ∀ c, c.core = k → (change c).core = k') (hhas : ∀ id, k.Has id → k'.Has id)
    (hmerged : (k'.bases = k.bases ∧ k'.mro = k.mro) ∨
      k.mro = [] ∧ ∃ orders, m'.store.Merged detail k' orders) :
    Orders detail k' type m { m' with store := m'.store.modifyClass detail change } := by
  obtain ⟨own, hown, hcore⟩ := Option.map_eq_some_iff.1 h.own
  -- The orders of all other classes stay, and so does that of the class if it has one.
  have hstay : ∀ {d : ClassId} {k : ClassCore} {orders : List (List TypeId)},
      m'.store.Merged d k orders → (m'.store.modifyClass detail change).Merged d k orders := by
    intro d k₀ orders hk
    refine hk.mono (fun _ _ ht => ht) fun d c hc hne => ?_
    by_cases hd : d = detail
    · subst hd
      obtain rfl := Option.some.inj (hc.symm.trans hown)
      refine ⟨change c, by rw [class?_modifyClass, if_pos rfl, hc]; rfl, ?_⟩
      rcases hmerged with ⟨-, hmro⟩ | ⟨hnone, -⟩
      · exact (congrArg ClassCore.mro (hchange c hcore)).trans
          (hmro.trans (congrArg ClassCore.mro hcore).symm)
      · exact absurd ((congrArg ClassCore.mro hcore).trans hnone) hne
    · exact ⟨c, by rw [class?_modifyClass_of_ne _ hd]; exact hc, rfl⟩
  refine ⟨h.toBegins.modifyClass hchange hhas, fun d c hc hnone => ?_⟩
  by_cases hd : d = detail
  · subst hd
    rw [class?_modifyClass, if_pos rfl, hown] at hc
    obtain rfl := Option.some.inj hc
    have hcore' := hchange own hcore
    rcases hmerged with ⟨hbases, hmro⟩ | ⟨-, orders, horders⟩
    · refine (h.merged d own hown hnone).imp (And.imp_right fun hempty => ?_)
        (Exists.imp fun orders horders => ?_)
      · exact (congrArg ClassCore.mro hcore').trans
          (hmro.trans ((congrArg ClassCore.mro hcore).symm.trans hempty))
      · rw [hcore']
        exact hstay (horders.congr (hcore ▸ hbases) (hcore ▸ hmro))
    · exact .inr ⟨orders, hcore' ▸ hstay horders⟩
  · rw [class?_modifyClass_of_ne _ hd] at hc
    exact (h.merged d c hc hnone).imp_right (Exists.imp fun orders => hstay)

/-- The class that is being evaluated may be kept with its type. -/
theorem keepClass (h : Orders detail k type m m') (n : NodeId) (decorated : TypeId) :
    Orders detail k type m { m' with classes := (n, ⟨type, decorated⟩) :: m'.classes } :=
  ⟨h.toBegins.keepClass n decorated, h.merged⟩

/-- When the evaluation of a class has ended and enough is set, its order has been merged, too. -/
theorem finish (h : Orders detail k type m m') (hended : k.isPartial = false)
    (hhas : k.Has type) :
    m.Merges m' where
  toCompletes := h.toBegins.finish hended hhas
  merged d c hc hnone := by
    refine (h.merged d c hc hnone).resolve_left ?_
    rintro ⟨rfl, hempty⟩
    obtain ⟨own, hown, hcore⟩ := Option.map_eq_some_iff.1 h.own
    obtain rfl := Option.some.inj (hc.symm.trans hown)
    rw [ClassCore.Has, ← hcore, show c.core.mro = [] from hempty] at hhas
    cases hhas.1

/-- A class that has been added without an order, and that is kept with its plain type, has
begun. -/
theorem start (m : Memory) {c : ClassDetail} (hc : c.mro = []) (n : NodeId) :
    let s := (m.store.addClass c).2
    let detail := (m.store.addClass c).1
    let type := (s.classType detail).1
    Orders detail c.core type m { m with
      store := (s.classType detail).2, classes := (n, ⟨type, type⟩) :: m.classes } := by
  intro s detail type
  refine ⟨Begins.start m c n, fun d c' hc' hnone => .inl ?_⟩
  have hcore := core_class?_classType m.store c d
  rw [show (s.classType detail).2.class? d = some c' from hc', hnone] at hcore
  split at hcore
  · rename_i hindex
    have hsame : c'.core = c.core := Option.some.inj hcore
    exact ⟨ClassId.eq_of_index hindex, (congrArg ClassCore.mro hsame).trans hc⟩
  · cases hcore

end Memory.Orders

namespace Evaluation

open Definitions

variable {p : Program} {m : Memory} {n : NodeId}

/-- Working out a class definition merges its order. -/
theorem merges_newClass (hm : m.Sound p.builtins) (decorators arguments : List NodeId)
    (body : NodeId) :
    Ensures (Query.SafelyBy p Memory.Merges) m (newClass p n decorators arguments body)
      fun _ m' => m.Merges m' := by
  have hfree : ∀ m, Free p Query.Anything m := fun _ _ _ _ => trivial
  unfold newClass
  extract_lets name
  refine (Ensures.safely Query.Anything hm (Works.onStore (works_addClass hasAll_nil))
    .onStore).bind fun detail m1 ⟨hm1, _, hdetail, h1⟩ => ?_
  refine (Ensures.safely Query.Anything hm1 (Works.onStore (works_classType hdetail)) .onStore).bind
    fun type m2 ⟨hm2, _, htype, h2⟩ => ?_
  have hin : type.In m2.store := in_of_get? htype
  refine Ensures.modify.bind fun _ m3 h3 => ?_
  have hm3 : m3.Sound p.builtins := h3 ▸ sound_keepClass hm2 ⟨hin, hin⟩
  have hstore : m3.store = m2.store := by rw [h3]
  have hstart : ∃ k, k.mro = [] ∧ Memory.Orders detail k type m m3 := by
    obtain ⟨rfl, rfl⟩ := h1
    obtain ⟨rfl, rfl⟩ := h2
    subst h3
    exact ⟨_, rfl, Memory.Orders.start m rfl n⟩
  obtain ⟨k, hmro, hstart⟩ := hstart
  -- The bases, members and decorators may lead back to the class, which has no order until all of
  -- its arguments have been worked out.
  refine (Ensures.safely Query.Anything hm3 (works_heritage (hfree m3) arguments)
    (.of_changes (changes_heritage p arguments))).bind fun h m4 ⟨hm4, hg4, hh, h4⟩ => ?_
  have hin4 : type.In m4.store := (hstore ▸ hin).mono hg4.store
  refine (Ensures.safely Query.Anything hm4 (works_completeHeritage hin4 hh body)
    (ensures_completeHeritage detail type h body)).bind fun _ m5 ⟨hm5, hg5, _, h5⟩ => ?_
  refine (Ensures.safely Query.Anything hm5 (works_completeFields (hfree m5) n)
    (ensures_completeFields detail n)).bind fun _ m6 ⟨hm6, hg6, _, h6⟩ => ?_
  have hin6 : type.In m6.store := (hin4.mono hg5.store).mono hg6.store
  refine (Ensures.safely Query.Anything hm6
    (Works.foldlM hin6 fun decorated expression _ m' _ hdecorated =>
      works_decorateClass (hfree m') hdecorated expression)
    (.of_changes (.foldlM (changes_decorateClass p (Lenient.mayChange detail)) _ _))).bind
    fun decorated m7 ⟨_, _, _, h7⟩ => ?_
  refine Ensures.modify.bind fun _ m8 h8 => .ret ?_
  obtain ⟨m5', metaclass, change, h5', hheritage, rfl⟩ := h5
  obtain ⟨m6', change', h6', hfields, rfl⟩ := h6
  subst h8
  have hkey : m4.store.classKey type = .inl detail := by
    have hget := hg4.store.get? type _ (hstore ▸ htype)
    simp only [classKey, classIdOf?, hget]
    rfl
  have hbases : m4.store.HasAll h.bases := by
    simp only [Heritage.types, hasAll_append] at hh
    exact hh.1.1.1
  have hmerged := h5'.toCompletes.merged
    (hm4.store.merged_linearize hkey hin4 hbases k metaclass)
  have hset := ((hstart.merges h4).merges h5').modifyClass
    (fun c hc => (hheritage c).trans (congrArg (ClassCore.withHeritage _ _ _) hc))
    (fun _ hhas => by
      rw [ClassCore.Has, hmro] at hhas
      cases hhas.1)
    (.inr ⟨hmro, _, hmerged⟩)
  have hended := (hset.merges h6').modifyClass
    (fun c hc => (hfields c).trans (congrArg ClassCore.ended hc)) (fun _ hhas => hhas)
    (.inl ⟨rfl, rfl⟩)
  exact ((hended.merges h7).keepClass n decorated).finish rfl ⟨head?_linearize _ _ _, rfl⟩

/-- The rules merge the orders of the classes that they make, on sound memories. -/
theorem merges_rule (htree : p.arena.ChildrenFirst) (q : Query) (m : Memory) :
    Ensures (Query.SafelyBy p Memory.Merges) m (q.rule p) (Query.SafelyBy p Memory.Merges q m) := by
  have hadd : ∀ (m : Memory) f, m.Merges { m with store := (m.store.addFunction f).2 } :=
    fun m f => .of_eq rfl rfl rfl rfl
  by_cases hsound : m.Sound p.builtins ∧ q.In m.store
  · obtain ⟨hm, hq⟩ := hsound
    have hworks := Query.works_rule htree hq
    have hchanges : ∀ {e : Evaluation q.Answer}, e = q.rule p → ChangesBy Memory.Merges e →
        Ensures (Query.SafelyBy p Memory.Merges) m (q.rule p)
          (Query.SafelyBy p Memory.Merges q m) := by
      rintro _ rfl he
      exact (Ensures.safely _ hm hworks (.of_changes he)).weaken
        fun a m' h _ _ => ⟨⟨h.1, h.2.1, h.2.2.1⟩, h.2.2.2⟩
    cases q with
    | node n =>
      refine hchanges rfl (changes_node p (fun m type => ?_) fun _ m f _ => hadd m f)
      exact .of_eq rfl rfl rfl rfl
    | classDef n =>
      have hmerges : Ensures (Query.SafelyBy p Memory.Merges) m (classDef p n)
          fun _ m' => m.Merges m' := by
        refine .get ?_
        split
        · exact .ret (Tolerant.refl m)
        · split
          · exact (merges_newClass hm _ _ _).bind fun _ _ h => .ret h
          · exact .ret (Tolerant.refl m)
      have hends : Ensures (Query.AnswersBy Memory.Merges) m (classDef p n) fun _ _ => True :=
        .trivial
      have hfits := hends.safely _ hm hworks
      exact Dialogue.Meets.weaken (hfits.and hmerges)
        fun _ h _ _ => ⟨⟨h.1.1, h.1.2.1, h.1.2.2.1⟩, h.2⟩
    | function n =>
      exact hchanges rfl
        (changes_function p (fun m types => .of_eq rfl rfl rfl rfl) fun _ m f _ => hadd m f)
    | _ => exact hchanges rfl (changes_plain p (fun d _ m => Lenient.keepsDeclaration m d.node) rfl)
  · exact Ensures.trivial.weaken fun _ _ _ hm hq => absurd ⟨hm, hq⟩ hsound

end Evaluation

namespace Checker

/-- Whether the orders of all classes are merged from those that their bases have. -/
def allMerged (s : TypeStore) : Bool :=
  (List.range s.classes.size).all fun i => (s.class? ⟨i⟩).all fun c =>
    c.mro.map s.classKey == merge id (.inl ⟨i⟩) (s.orders c.bases)

/-- The orders of the classes that are known beforehand are merged from those of their bases. -/
theorem allMerged_create : allMerged (Builtins.create.run TypeStore.initial).2 = true := by
  decide +kernel

/-- The orders of all classes of a checker for a file have been merged. -/
theorem Reached.merged {name text : String} {c : Checker}
    (h : Reached (SourceFile.ofText name text) c) (d : ClassId) (detail : ClassDetail)
    (hd : c.store.class? d = some detail) : ∃ orders, c.store.Merged d detail.core orders := by
  -- Over the answered questions; before them there are the classes that are known beforehand.
  induction h generalizing d detail with
  | start =>
    have hsound := (sound_checker name text).memory.store
    obtain ⟨b, s, hcreate, hstart⟩ := checker_eq (SourceFile.ofText name text)
    rw [hstart] at hsound hd ⊢
    have hall := allMerged_create
    rw [hcreate] at hall
    have hlt : d.index < s.classes.size := (Array.getElem?_eq_some_iff.1 hd).1
    have hmro := List.all_eq_true.1 hall d.index (List.mem_range.2 hlt)
    rw [show s.class? ⟨d.index⟩ = some detail from hd, Option.all_some, beq_iff_eq] at hmro
    exact ⟨_, TypeStore.Sound.merged (s := s) (k := detail.core) hsound (hsound.hasAll_core hd)
      hmro⟩
  | answered hc hq ha ih =>
    obtain ⟨⟨a', m'⟩, hanswer, heq⟩ := Option.map_eq_some_iff.1 ha
    cases heq
    have htree := hc.sound.tree
    have hmerges := (Evaluation.merges_rule htree _ _).of_run (Evaluation.merges_rule htree) hanswer
    exact (hmerges hc.sound.memory hq).2.all ih d detail hd

/-- In a checker for a file a base that has a class is of the one that comes first in its order. -/
theorem Reached.headsItsOrder {name text : String} {c : Checker}
    (h : Reached (SourceFile.ofText name text) c) {base : TypeId} {detail : ClassDetail}
    (hbase : c.store.classOf? base = some detail) : c.store.HeadsItsOrder base := by
  obtain ⟨d, hd, hdetail⟩ := Option.bind_eq_some_iff.1 hbase
  obtain ⟨orders, horders⟩ := h.merged d detail hdetail
  have hmro : detail.mro.map c.store.classKey = merge id (.inl d) _ := horders.mro
  refine ⟨detail, hbase, ?_⟩
  rw [← List.head?_map, hmro, head?_merge, classKey, hd]

/-- The order of every class of a checker for a file is merged from orders of its bases: that of a
base, or the base alone, as it has no order while it is worked out. It begins with the class, and
behind it no class comes twice. The class itself comes again just if it is in one of those orders
and there are first classes among those that come before it there. So it does not if it is not among
its own ancestors. -/
theorem ancestors_nodup_iff {name text : String} {c : Checker}
    (h : Reached (SourceFile.ofText name text) c) {d : ClassId} {detail : ClassDetail}
    (hd : c.store.class? d = some detail) :
    let ancestors := detail.mro.map c.store.classKey
    ancestors.head? = some (.inl d) ∧ ancestors.tail.Nodup ∧
    (∃ orders : List (List TypeId),
      List.Forall₂ (fun base order => order = [base] ∨ order = c.store.ancestry base)
        detail.bases orders ∧
      let merged := (orders ++ [detail.bases]).map (List.map c.store.classKey)
      ancestors = merge id (.inl d) merged ∧
      (ancestors.Nodup ↔ ¬(.inl d ∈ merged.flatten ∧ Acc (Precedes merged) (.inl d)))) ∧
    ((∀ base ∈ detail.bases, .inl d ∉ (c.store.ancestry base).map c.store.classKey) →
      ancestors.Nodup) := by
  intro ancestors
  obtain ⟨orders, horders⟩ := h.merged d detail hd
  have hancestors : ancestors = merge id (.inl d) _ := horders.mro
  rw [hancestors]
  refine ⟨head?_merge _ _, nodup_tail_merge _ _, ⟨orders, horders.bases, rfl, nodup_merge_iff⟩,
    fun hnone => nodup_merge_iff.2 fun hmem => ?_⟩
  obtain ⟨base, hbase, hkey⟩ := horders.exists_mem_ancestry hmem.1
  exact hnone base hbase hkey

/-- A class that names itself among its bases is twice in the order of its ancestors. -/
theorem ancestors_nodup_iff_itself :
    ∃ c d detail, Reached (SourceFile.ofText "a.py" "class A(A): pass\n") c ∧
      c.store.class? d = some detail ∧
      detail.mro.map c.store.classKey = [.inl d, .inl d] ∧
      (detail.mro.map c.store.classKey).tail.Nodup := by
  have hrun : ((SourceFile.ofText "a.py" "class A(A): pass\n").checker.askWithin? 5
      (.classDef 6)).map (fun r => (r.2.store.class? ⟨38⟩).map fun detail =>
        detail.mro.map r.2.store.classKey) = some (some [.inl ⟨38⟩, .inl ⟨38⟩]) := by
    decide +kernel
  obtain ⟨⟨t, c⟩, hask, hclass⟩ := Option.map_eq_some_iff.1 hrun
  obtain ⟨detail, hdetail, hmro⟩ := Option.map_eq_some_iff.1 hclass
  have hreached := Reached.answered (q := .classDef 6) .start trivial
    (ask?_eq_some_iff.2 ⟨5, hask⟩)
  exact ⟨c, ⟨38⟩, detail, hreached, hdetail, hmro, (ancestors_nodup_iff hreached hdetail).2.1⟩

end Checker

end TypeProbe
