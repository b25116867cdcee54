import TypeProbe.Proofs.Inference.Attaining
import TypeProbe.Proofs.Inference.Unpacking
import TypeProbe.Proofs.Scope.StraightLine

/-!
# Chains of expressions and names

The type of an expression of names, numbers, texts, tuples and operations depends on those of its
parts, and that of a name on the value of the declaration that it stands for. Where this chain is no
longer than the guards allow (`Arena.ChainWithin`) the evaluation is nowhere cut off: a chain that
has an end leads back to no node on it. So the expression has a type, which is kept, and a name has
the very type that is kept of its value (`Evaluation.answers_node`).
-/

namespace TypeProbe

open TypeStore

/-- The type of an expression depends on a chain of at most so many expressions, each of them part
of the one before it, or the value that a name stands for. -/
inductive Arena.ChainWithin (a : Arena) (stands : NodeId → NodeId → Prop) : Nat → NodeId → Prop
  | name {i : Nat} {n v : NodeId} (hstands : stands n v) (h : ChainWithin a stands i v) :
    ChainWithin a stands (i + 1) n
  | number {i : Nat} {n : NodeId} {literal : NumberLiteral}
    (hform : a.form? n = some (.number literal)) : ChainWithin a stands (i + 1) n
  | text {i : Nat} {n : NodeId} {strings : List NodeId}
    (hform : a.form? n = some (.stringList strings)) : ChainWithin a stands (i + 1) n
  | tuple {i : Nat} {n : NodeId} {items : List NodeId} {enclosed : Bool}
    (hform : a.form? n = some (.tuple items enclosed))
    (hitems : ∀ item ∈ items, ChainWithin a stands i item) : ChainWithin a stands (i + 1) n
  | operation {i : Nat} {n left right : NodeId} {op : Operator} {token : Token} {enclosed : Bool}
    (hform : a.form? n = some (.binaryOperation op token left right enclosed))
    (hleft : ChainWithin a stands i left) (hright : ChainWithin a stands i right) :
    ChainWithin a stands (i + 1) n

namespace Arena.ChainWithin

variable {a : Arena} {stands stands' : NodeId → NodeId → Prop} {i j : Nat} {n : NodeId}

/-- A chain within a length is within any greater one. -/
theorem mono (h : a.ChainWithin stands i n) (hle : i ≤ j) : a.ChainWithin stands j n := by
  induction h generalizing j with
  | name hstands _ ih =>
    obtain ⟨j, rfl⟩ := Nat.exists_eq_add_one_of_ne_zero (Nat.ne_zero_of_lt hle)
    exact .name hstands (ih (Nat.le_of_succ_le_succ hle))
  | number hform =>
    obtain ⟨j, rfl⟩ := Nat.exists_eq_add_one_of_ne_zero (Nat.ne_zero_of_lt hle)
    exact .number hform
  | text hform =>
    obtain ⟨j, rfl⟩ := Nat.exists_eq_add_one_of_ne_zero (Nat.ne_zero_of_lt hle)
    exact .text hform
  | tuple hform _ ih =>
    obtain ⟨j, rfl⟩ := Nat.exists_eq_add_one_of_ne_zero (Nat.ne_zero_of_lt hle)
    exact .tuple hform fun item hitem => ih item hitem (Nat.le_of_succ_le_succ hle)
  | operation hform _ _ ihleft ihright =>
    obtain ⟨j, rfl⟩ := Nat.exists_eq_add_one_of_ne_zero (Nat.ne_zero_of_lt hle)
    exact .operation hform (ihleft (Nat.le_of_succ_le_succ hle))
      (ihright (Nat.le_of_succ_le_succ hle))

/-- There is a least length that a chain is within. -/
theorem exists_least (h : a.ChainWithin stands (i + 1) n) :
    ∃ j ≤ i, a.ChainWithin stands (j + 1) n ∧ ¬a.ChainWithin stands j n := by
  induction i with
  | zero => exact ⟨0, Nat.le_refl 0, h, nofun⟩
  | succ i ih =>
    by_cases hless : a.ChainWithin stands (i + 1) n
    · obtain ⟨j, hj, hleast⟩ := ih hless
      exact ⟨j, Nat.le_succ_of_le hj, hleast⟩
    · exact ⟨i + 1, Nat.le_refl _, h, hless⟩

end Arena.ChainWithin

/-- Names that stand for values do so by declarations of variables that receive these values. -/
def Program.Follows (p : Program) (stands : NodeId → NodeId → Prop) : Prop :=
  ∀ n v, stands n v → ∃ token x target, p.arena.form? n = some (.name token x) ∧
    p.isTitle n = false ∧ p.standsFor? n x = some (.ofValue target v) ∧
    p.bindings.declaration? target = some (.ofValue target v)

/-- What is kept of expressions with an end to their chains is ordinary, and what is kept of names
and of declarations is kept of their values. -/
structure Memory.Settled (p : Program) (stands : NodeId → NodeId → Prop) (m : Memory) : Prop where
  /-- The types of expressions. -/
  nodes : ∀ i n t, p.arena.ChainWithin stands i n → m.nodeTypes.lookup n = some t →
    m.store.IsOrdinary t ∧ ∀ v, stands n v → m.nodeTypes.lookup v = some t
  /-- The types of declarations. -/
  declarations : ∀ i target v t, p.bindings.declaration? target = some (.ofValue target v) →
    p.arena.ChainWithin stands i v → m.declarationTypes.lookup target = some t →
    m.store.IsOrdinary t ∧ m.nodeTypes.lookup v = some t

/-- The guards leave room for chains of the given lengths, for nodes and for declarations, and what is
being worked out has no chains of these lengths. -/
structure Memory.Admits (p : Program) (stands : NodeId → NodeId → Prop) (i j : Nat) (m : Memory) :
    Prop where
  /-- There is room for nodes. -/
  nodeRoom : m.nodeGuard.depth + i ≤ m.nodeGuard.limit
  /-- No active node has such a chain. -/
  nodeFree : ∀ n ∈ m.nodeGuard.active, ¬p.arena.ChainWithin stands i n
  /-- There is room for declarations. -/
  declarationRoom : m.declarationGuard.depth + j ≤ m.declarationGuard.limit
  /-- The value of no active declaration has such a chain. -/
  declarationFree : ∀ target ∈ m.declarationGuard.active, ∀ v,
    p.bindings.declaration? target = some (.ofValue target v) → ¬p.arena.ChainWithin stands j v

/-- A memory goes to a settled one, in which a type is kept of a node. -/
structure Memory.Finds (p : Program) (stands : NodeId → NodeId → Prop) (m : Memory) (n : NodeId)
    (t : TypeId) (m' : Memory) : Prop extends m.Goes p Query.Any m', m'.Settled p stands where
  /-- The type is kept of the node. -/
  kept : m'.nodeTypes.lookup n = some t

namespace Memory

variable {p : Program} {stands : NodeId → NodeId → Prop} {m m' : Memory} {i j i' j' : Nat}
  {n v target : NodeId} {t : TypeId}

/-- A memory stays settled when its store grows. -/
theorem Settled.spares (h : m.Settled p stands) (hspares : m.Spares m') : m'.Settled p stands where
  nodes i n t hchain hn := by
    rw [hspares.nodeTypes] at hn ⊢
    exact (h.nodes i n t hchain hn).imp_left fun hordinary => hordinary.mono hspares.store.get?
  declarations i target v t hv hchain hkept := by
    rw [hspares.declarationTypes] at hkept
    rw [hspares.nodeTypes]
    exact (h.declarations i target v t hv hchain hkept).imp_left
      fun hordinary => hordinary.mono hspares.store.get?

/-- An ordinary type may be kept of a node, if none has been kept yet, and of a name if it is kept of
its value. -/
theorem Settled.keepNode (h : m.Settled p stands) (hfree : m.nodeTypes.lookup n = none)
    (hordinary : m.store.IsOrdinary t)
    (hvalue : ∀ v, stands n v → m.nodeTypes.lookup v = some t) :
    Settled p stands { m with nodeTypes := (n, t) :: m.nodeTypes } := by
  have hstays : ∀ {k t'}, m.nodeTypes.lookup k = some t' →
      List.lookup k ((n, t) :: m.nodeTypes) = some t' := by
    intro k t' hk
    have hne : k ≠ n := by
      rintro rfl
      cases hfree.symm.trans hk
    rwa [lookup_cons_of_ne hne]
  refine ⟨fun i k t' hchain hk => ?_, fun i target v t' hv hchain hkept =>
    (h.declarations i target v t' hv hchain hkept).imp_right hstays⟩
  by_cases heq : k = n
  · subst heq
    obtain rfl := Option.some.inj (List.lookup_cons_self.symm.trans hk)
    exact ⟨hordinary, fun v hstands => hstays (hvalue v hstands)⟩
  · replace hk := (lookup_cons_of_ne heq _ _).symm.trans hk
    exact (h.nodes i k t' hchain hk).imp_right fun hall v hstands => hstays (hall v hstands)

/-- The type of its value may be kept of a declaration. -/
theorem Settled.keepDeclaration (h : m.Settled p stands)
    (hdeclared : p.bindings.declaration? target = some (.ofValue target v))
    (hordinary : m.store.IsOrdinary t) (hvalue : m.nodeTypes.lookup v = some t) :
    Settled p stands { m with declarationTypes := (target, t) :: m.declarationTypes } := by
  refine ⟨h.nodes, fun i target' v' t' hv' hchain hkept => ?_⟩
  by_cases heq : target' = target
  · subst heq
    obtain rfl := Option.some.inj (List.lookup_cons_self.symm.trans hkept)
    cases hdeclared.symm.trans hv'
    exact ⟨hordinary, hvalue⟩
  · exact h.declarations i target' v' t' hv' hchain ((lookup_cons_of_ne heq _ _).symm.trans hkept)

namespace Admits

/-- Shorter chains are admitted too. -/
theorem mono (h : m.Admits p stands i j) (hi : i' ≤ i) (hj : j' ≤ j) : m.Admits p stands i' j' where
  nodeRoom := Nat.le_trans (Nat.add_le_add_left hi _) h.nodeRoom
  nodeFree n hn hchain := h.nodeFree n hn (hchain.mono hi)
  declarationRoom := Nat.le_trans (Nat.add_le_add_left hj _) h.declarationRoom
  declarationFree target ht v hv hchain := h.declarationFree target ht v hv (hchain.mono hj)

/-- Chains are admitted as long as the memory grows. -/
theorem grows (h : m.Admits p stands i j) (hgrows : m.Grows m') : m'.Admits p stands i j where
  nodeRoom := hgrows.nodeGuard ▸ h.nodeRoom
  nodeFree := hgrows.nodeGuard ▸ h.nodeFree
  declarationRoom := hgrows.declarationGuard ▸ h.declarationRoom
  declarationFree := hgrows.declarationGuard ▸ h.declarationFree

/-- On a node that has no shorter chain work may begin, and then shorter chains are admitted. -/
theorem enterNode (h : m.Admits p stands (i + 1) i) (hj : j ≤ i)
    (hchain : p.arena.ChainWithin stands (i + 1) n) (hleast : ¬p.arena.ChainWithin stands j n) :
    m.nodeGuard.enter n = (.entered, m.nodeGuard.further n) ∧
      Memory.Admits p stands j j (Evaluation.nodeSlot.put (m.nodeGuard.further n) m) := by
  have hroom := h.nodeRoom
  have hless := h.mono (Nat.le_succ_of_le hj) hj
  refine ⟨Guard.enter_eq (by omega) fun hactive => h.nodeFree n hactive hchain, ?_,
    List.forall_mem_cons.2 ⟨hleast, hless.nodeFree⟩, hless.declarationRoom, hless.declarationFree⟩
  show m.nodeGuard.depth + 1 + j ≤ m.nodeGuard.limit
  omega

/-- On a declaration of a value that has no shorter chain work may begin, and then shorter chains are
admitted. -/
theorem enterDeclaration (h : m.Admits p stands (i + 1) (i + 1)) (hj : j ≤ i)
    (hdeclared : p.bindings.declaration? target = some (.ofValue target v))
    (hchain : p.arena.ChainWithin stands (i + 1) v) (hleast : ¬p.arena.ChainWithin stands j v) :
    m.declarationGuard.enter target = (.entered, m.declarationGuard.further target) ∧
      Memory.Admits p stands (j + 1) j
        (Evaluation.declarationSlot.put (m.declarationGuard.further target) m) := by
  have hroom := h.declarationRoom
  have hless := h.mono (Nat.succ_le_succ hj) (Nat.le_succ_of_le hj)
  refine ⟨Guard.enter_eq (by omega) fun hactive =>
    h.declarationFree target hactive v hdeclared hchain, hless.nodeRoom, hless.nodeFree, ?_,
    List.forall_mem_cons.2 ⟨fun v' hv' => ?_, hless.declarationFree⟩⟩
  · show m.declarationGuard.depth + 1 + j ≤ m.declarationGuard.limit
    omega
  · cases hdeclared.symm.trans hv'
    exact hleast

end Admits

end Memory

namespace Evaluation

variable {p : Program} {stands : NodeId → NodeId → Prop} {m : Memory} {i j : Nat}
  {n v target : NodeId}

/-- Guarded work that may begin comes to an end as it is described if what is guarded does. -/
theorem attains_guarded {κ α : Type} [DecidableEq κ] {slot : GuardSlot κ} {key : κ}
    {provisional : α} {work : Evaluation α} {keep : α → Memory → Memory} {P : α → Memory → Prop}
    {g : Guard κ} (hentered : (slot.guard m).enter key = (.entered, g))
    (hwork : Attains p (slot.put g m) work fun a m' =>
      P a (keep a (slot.put ((slot.guard m').leave key) m'))) :
    Attains p m (guarded slot key provisional work keep) P := by
  refine .get ?_
  rw [hentered]
  obtain ⟨a, m', hrun, hP⟩ := hwork
  refine ⟨a, _, ?_, hP⟩
  show ((work (slot.put g m)).bind fun r =>
    .done (r.1, keep r.1 (slot.put ((slot.guard r.2).leave key) r.2))).run p = _
  rw [Dialogue.run_bind, hrun]
  exact Dialogue.run_done _

/-- A name that stands for a declaration has the type that the declaration gives. -/
theorem plainName_of_standsFor? {x : String} {d : Declaration} (h : p.standsFor? n x = some d) :
    Expressions.plainName p n x = some <$> ask (.declaration d) := by
  unfold Program.standsFor? at h
  unfold Expressions.plainName Expressions.declared
  cases hdeclared : p.bindings.declaration? n with
  | some d' =>
    rw [hdeclared] at h
    cases h
    simp
  | none =>
    rw [hdeclared, Option.none_or] at h
    obtain ⟨⟨found, ds⟩, hlookup, hlatest⟩ := Option.bind_eq_some_iff.1 h
    obtain ⟨hscope, hlatest⟩ := Option.ite_none_right_eq_some.1 hlatest
    have hnames : Names.lookup p n x = ask (.declaration d) := by
      unfold Names.lookup
      dsimp only
      rw [hlookup]
      unfold Names.ofDeclarations
      dsimp only
      rw [if_pos (beq_iff_eq.2 hscope), hlatest]
    simp [hnames]

/-- A variable that receives a whole value has its type. -/
theorem variableType_ofValue (h : p.hasValue v = true) :
    Names.variableType p (.ofValue target v) = typeOf v := by
  have hnode : (p.arena.get? v).isNone = false := by
    unfold Program.hasValue Arena.form? at h
    cases hget : p.arena.get? v with
    | none =>
      rw [hget] at h
      cases h
    | some node => rfl
  unfold Names.variableType Declaration.ofValue
  dsimp only
  rw [hnode, sourceType_of_hasValue h]
  simp

/-- An expression with an end to its chain has a value. -/
theorem hasValue_of_chainWithin (hfollows : p.Follows stands)
    (h : p.arena.ChainWithin stands i n) : p.hasValue n = true := by
  unfold Program.hasValue
  cases h with
  | name hstands _ =>
    obtain ⟨token, x, target, hform, htitle, -⟩ := hfollows _ _ hstands
    rw [hform]
    simp [Program.isLabel_of_not_isTitle htitle]
  | number hform | text hform | tuple hform | operation hform => rw [hform]; rfl

section Rules

variable (htree : p.arena.ChildrenFirst) (hbuiltins : p.builtins = Builtins.foreknown.1)
  (hfollows : p.Follows stands)

/-- The types of expressions are found one after the other. -/
theorem attains_items {items : List NodeId} (hm : m.Regular p) (hsettled : m.Settled p stands)
    (hitems : ∀ item ∈ items, ∀ m', m.Goes p Query.Any m' → m'.Settled p stands →
      Attains p m' (typeOf item) (m'.Finds p stands item)) :
    Attains p m (items.mapM typeOf) fun _ m' => m.Goes p Query.Any m' ∧ m'.Settled p stands := by
  induction items generalizing m with
  | nil => exact .ret ⟨.refl hm, hsettled⟩
  | cons item items ih =>
    rw [List.mapM_cons]
    refine (hitems item List.mem_cons_self m (.refl hm) hsettled).bind fun t m1 h1 => ?_
    refine (ih h1.regular h1.toSettled fun item hitem m' hm' =>
      hitems item (List.mem_cons_of_mem _ hitem) m' (h1.toGoes.trans hm')).bind
      fun types m2 ⟨h2, hsettled2⟩ => ?_
    exact .ret ⟨h1.toGoes.trans h2, hsettled2⟩

include hbuiltins in
/-- The texts in a row have an ordinary type. -/
theorem attains_texts (hm : m.Regular p) (strings : List NodeId) :
    Attains p m (Expressions.texts p strings) m.Makes := by
  have hb : p.builtins.In Builtins.foreknown.2 := hbuiltins ▸ sound_foreknown.2
  unfold Expressions.texts
  dsimp only
  split
  · exact .make (keeping_instanceOf _) (isOrdinary_instanceOf hm.store hb.bytes)
  split
  · exact .make (keeping_add _) (isOrdinary_literal hb.text _)
  · exact .make (keeping_instanceOf _) (isOrdinary_instanceOf hm.store hb.text)

include hbuiltins hfollows in
/-- What is computed for an expression is ordinary, and for a name it is the type of its value, if the
parts have types, and the declaration that a name stands for gives one. -/
theorem attains_compute (hm : m.Regular p) (hsettled : m.Settled p stands)
    (hparts : ∀ part, p.arena.ChainWithin stands i part → ∀ m', m.Goes p Query.Any m' →
      m'.Settled p stands → Attains p m' (typeOf part) (m'.Finds p stands part))
    (hnames : ∀ target v, p.bindings.declaration? target = some (.ofValue target v) →
      p.bindings.Knows (.ofValue target v) → p.arena.ChainWithin stands i v →
      Attains p m (ask (.declaration (.ofValue target v))) (m.Finds p stands v))
    (h : p.arena.ChainWithin stands (i + 1) n) :
    Attains p m (Expressions.compute p n) fun a m' => ∃ t, a = some t ∧ m'.Settled p stands ∧
      m'.store.IsOrdinary t ∧ ∀ v, stands n v → m'.nodeTypes.lookup v = some t := by
  have hb : p.builtins.In Builtins.foreknown.2 := hbuiltins ▸ sound_foreknown.2
  -- Only names stand for values.
  have hnone : ∀ {form}, p.arena.form? n = some form → (∀ token x, form ≠ .name token x) →
      ∀ v, ¬stands n v := by
    intro form hform hne v hstands
    obtain ⟨token, x, target, hname, -⟩ := hfollows n v hstands
    exact hne token x (Option.some.inj (hform.symm.trans hname))
  have hwhole : ∀ {form} {m1 : Memory} {e : Evaluation TypeId}, p.arena.form? n = some form →
      (∀ token x, form ≠ .name token x) → m1.Settled p stands → Attains p m1 e m1.Makes →
      Attains p m1 (some <$> e) fun a m' => ∃ t, a = some t ∧ m'.Settled p stands ∧
        m'.store.IsOrdinary t ∧ ∀ v, stands n v → m'.nodeTypes.lookup v = some t :=
    fun hform hne hsettled he => he.map fun t m' ⟨hspares, hordinary⟩ =>
      ⟨t, rfl, hsettled.spares hspares, hordinary, fun v hv => absurd hv (hnone hform hne v)⟩
  unfold Expressions.compute
  extract_lets b whole
  cases h with
  | @name _ _ v hstands hchain =>
    obtain ⟨token, x, target, hform, htitle, hd, hdeclared⟩ := hfollows n v hstands
    rw [hform]
    dsimp only
    rw [name_of_not_isTitle htitle, plainName_of_standsFor? hd]
    refine (hnames target v hdeclared (Program.knows_of_standsFor? hd) hchain).map
      fun t m' h => ⟨t, rfl, h.toSettled, (h.nodes i v t hchain h.kept).1, fun v' hstands' => ?_⟩
    obtain ⟨_, _, target', hform', -, hd', -⟩ := hfollows n v' hstands'
    cases hform.symm.trans hform'
    cases hd.symm.trans hd'
    exact h.kept
  | number hform =>
    rw [hform]
    exact hwhole hform nofun hsettled
      (.make (keeping_number _ _) (isOrdinary_number hm.store hb _))
  | text hform =>
    rw [hform]
    exact hwhole hform nofun hsettled (attains_texts hbuiltins hm _)
  | tuple hform hitems =>
    rw [hform]
    refine Attains.map (P := fun t m' => m'.Settled p stands ∧ m'.store.IsOrdinary t) ?_
      fun t m' ⟨hsettled, hordinary⟩ => ⟨t, rfl, hsettled, hordinary,
        fun v hv => absurd hv (hnone hform nofun v)⟩
    refine (attains_items hm hsettled fun item hitem m' => hparts item (hitems item hitem) m').bind
      fun types m1 ⟨h1, hsettled1⟩ => ?_
    exact (Attains.make (keeping_add _) (isOrdinary_specializedInstance hb.tuple types)).weaken
      fun t m' ⟨hspares, hordinary⟩ => ⟨hsettled1.spares hspares, hordinary⟩
  | operation hform hleft hright =>
    rw [hform]
    refine Attains.map (P := fun t m' => m'.Settled p stands ∧ m'.store.IsOrdinary t) ?_
      fun t m' ⟨hsettled, hordinary⟩ => ⟨t, rfl, hsettled, hordinary,
        fun v hv => absurd hv (hnone hform nofun v)⟩
    refine (hparts _ hleft m (.refl hm) hsettled).bind fun l m1 h1 => ?_
    refine (hparts _ hright m1 h1.toGoes h1.toSettled).bind fun r m2 h2 => ?_
    have hl := (h1.nodes i _ l hleft h1.kept).1.mono h2.within
    have hr := (h2.nodes i _ r hright h2.kept).1
    exact (attains_binary h2.regular hbuiltins hl hr _).weaken
      fun t m' ⟨hspares, hordinary⟩ => ⟨h2.toSettled.spares hspares, hordinary⟩

include htree hbuiltins

/-- A memory goes on with the answer to a known question. -/
theorem goes_of_answer (hm : m.Regular p) {q : Query} (hknown : q.Known p) (hq : q.In m.store)
    {a : q.Answer} {m' : Memory} (h : q.answer p m = some (a, m')) : m.Goes p Query.Any m' := by
  obtain ⟨_, _, hrun, ⟨rfl, rfl⟩, hgoes, -⟩ := Attains.told htree hbuiltins
    (Attains.ask (P := fun a' m'' => a' = a ∧ m'' = m') h ⟨rfl, rfl⟩) (goes_ask hm hknown hq)
  exact hgoes

include hfollows

/-- Where nodes have types under guards that admit their chains, the declaration of a value gives the
type that is kept of the value. -/
theorem attains_declaration
    (hnodes : ∀ j ≤ i, ∀ m : Memory, p.arena.ChainWithin stands (j + 1) v → m.Regular p →
      m.Settled p stands → m.Admits p stands (j + 1) j →
      Attains p m (typeOf v) (m.Finds p stands v))
    (hm : m.Regular p) (hsettled : m.Settled p stands) (hadmits : m.Admits p stands (i + 1) (i + 1))
    (hdeclared : p.bindings.declaration? target = some (.ofValue target v))
    (hknows : p.bindings.Knows (.ofValue target v)) (h : p.arena.ChainWithin stands (i + 1) v) :
    Attains p m (ask (.declaration (.ofValue target v))) (m.Finds p stands v) := by
  have hrule : Attains p m (Names.declaration p (.ofValue target v)) fun t m' =>
      m'.Settled p stands ∧ m'.nodeTypes.lookup v = some t := by
    unfold Names.declaration Declaration.ofValue
    refine .get ?_
    dsimp only
    cases hkept : m.declarationTypes.lookup target with
    | some t => exact .ret ⟨hsettled, (hsettled.declarations _ _ _ _ hdeclared h hkept).2⟩
    | none =>
      obtain ⟨j, hj, hchain, hleast⟩ := h.exists_least
      -- The value has no shorter chain, so that nothing on its chain leads back to the declaration.
      obtain ⟨hentered, hadmits1⟩ := hadmits.enterDeclaration hj hdeclared h hleast
      refine attains_guarded hentered ?_
      show Attains p _ (Names.variableType p (.ofValue target v)) _
      rw [variableType_ofValue (hasValue_of_chainWithin hfollows h)]
      have hfound := hnodes j hj (declarationSlot.put (m.declarationGuard.further target) m) hchain
        ⟨lawful_declarationSlot.sound _ hm.sound, hm.foreknows⟩
        ⟨hsettled.nodes, hsettled.declarations⟩ hadmits1
      exact hfound.weaken fun t m' hfinds => ⟨Memory.Settled.keepDeclaration
        (m := declarationSlot.put _ m') ⟨hfinds.nodes, hfinds.declarations⟩ hdeclared
        (hfinds.nodes _ v t h hfinds.kept).1 hfinds.kept, hfinds.kept⟩
  obtain ⟨t, m', hrun, hsettled', hkept⟩ := hrule
  exact .ask hrun ⟨goes_of_answer htree hbuiltins hm (q := .declaration _) hknows trivial hrun,
    hsettled', hkept⟩

/-- Under guards that admit its chain an expression has a type, which is kept of it. -/
theorem answers_node (i : Nat) {n : NodeId} {m : Memory} (h : p.arena.ChainWithin stands (i + 1) n)
    (hm : m.Regular p) (hsettled : m.Settled p stands) (hadmits : m.Admits p stands (i + 1) i) :
    ∃ t m', (Query.node n).answer p m = some (some t, m') ∧ m.Finds p stands n t m' := by
  induction i using Nat.strong_induction_on generalizing n m with
  | _ i ih =>
  have hparts : ∀ j < i, ∀ (n : NodeId) (m : Memory), p.arena.ChainWithin stands (j + 1) n →
      m.Regular p → m.Settled p stands → m.Admits p stands (j + 1) j →
      Attains p m (typeOf n) (m.Finds p stands n) := by
    intro j hj n m h hm hsettled hadmits
    obtain ⟨t, m', hanswer, hfinds⟩ := ih j hj h hm hsettled hadmits
    exact Attains.bind (P := fun a m' => ∃ t, a = some t ∧ m.Finds p stands n t m')
      (.ask hanswer ⟨t, rfl, hfinds⟩) fun a m' ⟨t, ha, hfinds⟩ => .ret (ha ▸ hfinds)
  cases hkept : m.nodeTypes.lookup n with
  | some t => exact ⟨t, m, Query.answer_node_of_kept hkept, .refl hm, hsettled, hkept⟩
  | none =>
    have hrule : Attains p m (Expressions.node p n) fun a m' => ∃ t, a = some t ∧
        m'.Settled p stands ∧ m'.nodeTypes.lookup n = some t := by
      obtain ⟨j, hj, hchain, hleast⟩ := h.exists_least
      -- The node has no shorter chain, so that nothing on its chain leads back to it.
      obtain ⟨hentered, hadmits1⟩ := hadmits.enterNode hj h hleast
      refine .get ?_
      rw [hkept]
      refine attains_guarded hentered ?_
      have hm1 : Memory.Regular p (nodeSlot.put (m.nodeGuard.further n) m) :=
        ⟨lawful_nodeSlot.sound _ hm.sound, hm.foreknows⟩
      have hsettled1 : Memory.Settled p stands (nodeSlot.put (m.nodeGuard.further n) m) :=
        ⟨hsettled.nodes, hsettled.declarations⟩
      refine ((attains_compute hbuiltins hfollows hm1 hsettled1 ?_ ?_ hchain).told htree hbuiltins
        (explains_compute hm1 hbuiltins n)).weaken ?_
      · intro part hpart m' hgoes hsettled'
        cases j with
        | zero => cases hpart
        | succ j =>
          exact hparts j (by omega) part m' hpart hgoes.regular hsettled'
            ((hadmits1.grows hgoes.grows).mono (Nat.le_refl _) (Nat.le_succ j))
      · intro target v hdeclared hknows hv
        cases j with
        | zero => cases hv
        | succ j =>
          exact attains_declaration htree hbuiltins hfollows
            (fun k hk m' => hparts k (by omega) v m') hm1 hsettled1 hadmits1 hdeclared hknows hv
      · rintro a m' ⟨⟨t, rfl, hsettled', hordinary, hvalue⟩, hgoes, -⟩
        have hfree : m'.nodeTypes.lookup n = none :=
          (hgoes.grows.active n List.mem_cons_self).trans hkept
        exact ⟨t, rfl, Memory.Settled.keepNode (m := nodeSlot.put _ m')
          ⟨hsettled'.nodes, hsettled'.declarations⟩ hfree hordinary hvalue, List.lookup_cons_self⟩
    obtain ⟨_, m', hrun, t, rfl, hsettled', hkept'⟩ := hrule
    exact ⟨t, m', hrun, goes_of_answer htree hbuiltins hm (q := .node n) trivial trivial hrun,
      hsettled', hkept'⟩

end Rules

end Evaluation

end TypeProbe
