import TypeProbe.Proofs.Inference.Explanations

/-!
# The rules explain what they keep

Each rule for an expression is gone through once: its result comes from what the parts are taken to
have, as `Memory.Explains` says. The rules for definitions, names and calls keep no types of nodes,
so that they have only to leave what is there. Where the evaluation of a part has been cut off the
rules for operations look for a member of what is unknown, or of a number; what the answers to that
are is told with the answers to all questions (`Query.Tells`).
-/

namespace TypeProbe

open TypeStore

/-- What is known of an answer besides that it fits: a node is taken to have the answered type, a
variable to be given it, nothing is known of what is taken from or called on what is unknown, and no
class that is known beforehand has a member for an operation. -/
def Query.Reveals (p : Program) (cut : Query → Prop) (m : Memory) :
    (q : Query) → q.Answer → Memory → Prop
  | .node n, answer, m' => m'.Takes p cut n (answer.getD .unknown)
  | .member object name, answer, _ =>
    (m.store.isUnknown object = true → answer = some .unknown) ∧
    ∀ d arguments literal, m.store.IsNominal object d arguments literal →
      d.In Builtins.foreknown.2 → name ∈ Values.operationNames → answer = none
  | .call callee _, answer, _ => m.store.isUnknown callee = true → answer = .unknown
  | .declaration d, answer, m' => d.kind = .variable → m'.Gives cut d answer
  | .classDef _, _, _ | .function _, _, _ | .hint _, _, _ | .returned _, _, _ => True

/-- The declarations of which types are kept on the way to an answer: those of the module, and the
one that is asked for. -/
def Query.Counts (p : Program) (q : Query) (d : Declaration) : Prop :=
  p.bindings.Knows d ∨ q = .declaration d

/-- What is known of answers if what is known beforehand is there. -/
def Query.Tells (p : Program) (cut : Query → Prop) (q : Query) (m : Memory) (a : q.Answer)
    (m' : Memory) : Prop :=
  q.Given p m a m' ∧ (m.store.Foreknows → m.Advances p cut (q.Counts p) m' ∧ q.Reveals p cut m a m')

/-- On the way to the answer to a known question only types of known declarations are kept. -/
theorem Query.Known.of_counts {p : Program} {q : Query} (h : q.Known p) (d : Declaration)
    (hd : q.Counts p d) : p.bindings.Knows d := by
  rcases hd with hd | rfl
  · exact hd
  · exact h

/-- Known questions may be asked. -/
abbrev Query.Knowing (p : Program) (q : Query) (_ : Memory) : Prop := q.Known p

/-- What is known of the answers to known questions about sound memories. -/
abbrev Query.Told (p : Program) (cut : Query → Prop) :
    (q : Query) → Memory → q.Answer → Memory → Prop :=
  Query.SafelyWithin p (Query.Knowing p) (Query.Tells p cut)

/-- A sound memory in which what is known beforehand is there. -/
structure Memory.Regular (p : Program) (m : Memory) : Prop where
  /-- The memory is sound. -/
  sound : m.Sound p.builtins
  /-- What is known beforehand is there. -/
  foreknows : m.store.Foreknows

/-- The store is regular. -/
theorem Memory.Regular.store {p : Program} {m : Memory} (h : m.Regular p) : m.store.Regular :=
  ⟨h.sound.store, h.foreknows⟩

/-- A sound memory that has grown from another one and advances it. -/
structure Memory.Goes (p : Program) (cut : Query → Prop) (m m' : Memory) : Prop
    extends m.Advances p cut p.bindings.Knows m' where
  /-- The memory is sound. -/
  sound : m'.Sound p.builtins
  /-- It has grown. -/
  grows : m.Grows m'

namespace Memory.Goes

variable {p : Program} {cut : Query → Prop} {m m' m'' : Memory}

/-- A regular memory goes to itself. -/
theorem refl (h : m.Regular p) : m.Goes p cut m := ⟨.refl h.foreknows, h.sound, .refl m⟩

/-- One step after another. -/
theorem trans (h : m.Goes p cut m') (h' : m'.Goes p cut m'') : m.Goes p cut m'' :=
  ⟨h.toAdvances.trans h'.toAdvances, h'.sound, h.grows.trans h'.grows⟩

/-- The memory stays regular. -/
theorem regular (h : m.Goes p cut m') : m'.Regular p := ⟨h.sound, h.foreknows⟩

end Memory.Goes

namespace Evaluation

variable {p : Program} {cut : Query → Prop} {m m' : Memory} {n : NodeId} {α : Type}
  {e : Evaluation α}

/-- What is known of the end in two ways is known of it. -/
theorem Ensures.and {answers : (q : Query) → Memory → q.Answer → Memory → Prop}
    {post post' : α → Memory → Prop} (h : Ensures answers m e post)
    (h' : Ensures answers m e post') :
    Ensures answers m e fun a m' => post a m' ∧ post' a m' := Dialogue.Meets.and h h'

/-- Less may be known of answers. -/
theorem Ensures.of_answers {answers answers' : (q : Query) → Memory → q.Answer → Memory → Prop}
    {post : α → Memory → Prop} (h : Ensures answers m e post)
    (hanswers : ∀ {q m a m'}, answers' q m a m' → answers q m a m') :
    Ensures answers' m e post := Dialogue.Meets.of_answers h hanswers

/-- Known questions may be asked at any time. -/
theorem free_knowing (m : Memory) : Free p (Query.Knowing p) m := fun _ _ q => q.2

/-! ## Steps -/

section Steps

variable (hm : m.Regular p)
include hm

/-- What works and upholds goes on. -/
theorem goes_of {post : α → TypeStore → Prop} (hworks : Works p (Query.Knowing p) m e post)
    (hchanges : (e m).ChangesBy (Memory.Upholds p cut) m) :
    Ensures (Query.Told p cut) m e fun a m' => m.Goes p cut m' ∧ post a m'.store := by
  have htold : Ensures (Query.Told p cut) m e fun a m' =>
      m'.Sound p.builtins ∧ m.Grows m' ∧ post a m'.store ∧ m.Upholds p cut m' := by
    refine Ensures.of_answers (Ensures.safely_within hm.sound hworks hchanges.meets) ?_
    intro q m a m' h hfit
    obtain ⟨hfits, -, htells⟩ := h hfit
    exact ⟨hfits, fun hforeknows => (htells hforeknows).1.mono (hfit.2.2.of_counts)⟩
  exact htold.weaken
    fun a m' ⟨hsound, hgrows, hpost, h⟩ => ⟨⟨h hm.foreknows, hsound, hgrows⟩, hpost⟩

/-- A known question may be asked about what is there. -/
theorem goes_ask {q : Query} (hknown : q.Known p) (hq : q.In m.store) :
    Ensures (Query.Told p cut) m (ask q) fun a m' =>
      m.Goes p cut m' ∧ q.AnswerIn m'.store a ∧ q.Reveals p cut m a m' := by
  refine Ensures.ask.weaken fun a m' h => ?_
  obtain ⟨⟨hsound, hgrows, hin⟩, -, htells⟩ := h ⟨hm.sound, hq, hknown⟩
  obtain ⟨hadvances, hreveals⟩ := htells hm.foreknows
  exact ⟨⟨hadvances.mono hknown.of_counts, hsound, hgrows⟩, hin, hreveals⟩

/-- A node is taken to have the type that is asked for. -/
theorem goes_typeOf (n : NodeId) :
    Ensures (Query.Told p cut) m (typeOf n) fun t m' =>
      m.Goes p cut m' ∧ t.In m'.store ∧ m'.Takes p cut n t :=
  (goes_ask hm (q := .node n) trivial trivial).bind fun _ _ ⟨hgoes, hin, htakes⟩ =>
    .ret ⟨hgoes, getD_in hgoes.sound.store hin, htakes⟩

/-- The store may be worked on, and the types that are made of what is there are made of that. -/
theorem goes_onStore {work : TypeStore → α × TypeStore} {post : α → TypeStore → Prop}
    (hworks : m.store.Works work post) (hkeeping : Keeping work) :
    Ensures (Query.Told p cut) m (onStore work) fun a m' =>
      m.Goes p cut m' ∧ post a m'.store ∧ a = (work m.store).1 ∧ m'.store = (work m.store).2 := by
  have hstore : Works p (Query.Knowing p) m (onStore work) post := .onStore hworks
  refine ((goes_of hm hstore (ChangesBy.onStore hkeeping m)).and Ensures.onStore).weaken ?_
  rintro a m' ⟨⟨hgoes, hpost⟩, ha, rfl⟩
  exact ⟨hgoes, hpost, ha, rfl⟩

/-- A type may be made. -/
theorem goes_make {ids : List TypeId} {work : TypeStore → TypeId × TypeStore}
    (hids : m.store.HasAll ids) (hworks : m.store.Works work TypeId.In)
    (hkeeping : Keeping work) :
    Ensures (Query.Told p cut) m (onStore work) fun t m' =>
      m.Goes p cut m' ∧ t.In m'.store ∧ m'.store.Made ids work t :=
  (goes_onStore hm hworks hkeeping).weaken fun _ _ ⟨hgoes, hin, ht, hstore⟩ =>
    ⟨hgoes, hin, m.store, hm.store, hids, ht.symm, hstore ▸ .refl _⟩

omit hm in
/-- An evaluation for each element of a list, of which something is known that stays. -/
theorem goes_mapM {β : Type} {f : β → Evaluation TypeId} {P : Memory → β → TypeId → Prop}
    (hmono : ∀ {m m' : Memory} {b t}, m.Goes p cut m' → P m b t → P m' b t)
    (hf : ∀ {m : Memory} b, m.Regular p → Ensures (Query.Told p cut) m (f b)
      fun t m' => m.Goes p cut m' ∧ t.In m'.store ∧ P m' b t)
    (hm : m.Regular p) (bs : List β) :
    Ensures (Query.Told p cut) m (bs.mapM f) fun ts m' =>
      m.Goes p cut m' ∧ m'.store.HasAll ts ∧ List.Forall₂ (P m') bs ts := by
  induction bs generalizing m with
  | nil => exact .ret ⟨.refl hm, hasAll_nil, .nil⟩
  | cons b bs ih =>
    rw [List.mapM_cons]
    refine (hf b hm).bind fun t m1 ⟨h1, ht, hP⟩ => ?_
    refine (ih h1.regular).bind fun ts m2 ⟨h2, hts, hPs⟩ => .ret ?_
    exact ⟨h1.trans h2, hasAll_cons.2 ⟨ht.mono h2.grows.store, hts⟩, .cons (hmono h2 hP) hPs⟩

end Steps

/-! ## Members of what is unknown and of numbers -/

section Members

variable {object : TypeId} {name : String} {arguments : List TypeId}

/-- Nothing is known of the unknown type. -/
theorem isUnknown_unknown (hm : m.Regular p) : m.store.isUnknown .unknown = true := by
  unfold isUnknown
  rw [hm.foreknows.shape?_unknown]

/-- Nothing is known of the provisional type. -/
theorem isUnknown_incomplete (hm : m.Regular p) : m.store.isUnknown .incomplete = true := by
  unfold isUnknown
  rw [hm.foreknows.shape?_incomplete]

/-- Nothing is known of a call of a member of what is unknown. -/
theorem callMemberD_of_isUnknown (hm : m.Regular p) (hobject : object.In m.store)
    (harguments : m.store.HasAll arguments) (h : m.store.isUnknown object = true) :
    Ensures (Query.Told p cut) m (callMemberD object name arguments) fun t _ =>
      t = .unknown := by
  refine Ensures.bind ?_ fun found _ hfound => .ret hfound
  show Ensures _ _ (callMember object name arguments) fun found _ => found.getD .unknown = .unknown
  refine (goes_ask hm (q := .member object name) trivial hobject).bind
    fun found m1 ⟨h1, hin, hreveals, _⟩ => ?_
  obtain rfl : found = some .unknown := hreveals h
  have hcall : (Query.call .unknown arguments).In m1.store :=
    ⟨hin _ rfl, harguments.mono h1.grows.store⟩
  exact (goes_ask h1.regular (q := .call .unknown arguments) trivial hcall).bind fun t m2 ⟨_, _, ht⟩ =>
    .ret (ht (isUnknown_unknown h1.regular))

/-- Values of classes that are known beforehand have no members for operations. -/
theorem callMemberD_of_isNominal (hm : m.Regular p) {d : ClassId}
    {typeArguments : Option (List TypeId)} {literal : Option LiteralValue}
    (hobject : m.store.IsNominal object d typeArguments literal) (hd : d.In Builtins.foreknown.2)
    (hname : name ∈ Values.operationNames) :
    Ensures (Query.Told p cut) m (callMemberD object name arguments) fun t _ =>
      t = .unknown := by
  refine Ensures.bind ?_ fun found _ hfound => .ret hfound
  show Ensures _ _ (callMember object name arguments) fun found _ => found.getD .unknown = .unknown
  refine (goes_ask hm (q := .member object name) trivial hobject.in_store).bind
    fun found m1 ⟨_, _, _, hreveals⟩ => ?_
  obtain rfl : found = none := hreveals d _ _ hobject hd hname
  exact .ret rfl

end Members

/-! ## Operations -/

section Operations

open Operations

variable {op : Operator} {operand left right : TypeId}

/-- An operation on one operand is explained. -/
theorem explains_unary (hm : m.Regular p) (hop : op ≠ .not) (hoperand : operand.In m.store) :
    Ensures (Query.Told p cut) m (unary p op operand) fun t m' =>
      m.Goes p cut m' ∧ t.In m'.store ∧ m'.Signs p op operand t := by
  have hgoes : Ensures (Query.Told p cut) m (unary p op operand) fun t m' =>
      m.Goes p cut m' ∧ t.In m'.store :=
    goes_of hm (works_unary (free_knowing m) op hoperand) (changes_unary p op operand m)
  suffices hsigns : Ensures (Query.Told p cut) m (unary p op operand) fun t m' =>
      (m.store.isUnknown operand = true → t = .unknown) ∧
      (∀ n, m.store.IsNominal operand p.builtins.int none (some (.int n)) →
        (op = .subtract → m'.store.Made [] (·.literal p.builtins.int (.int (Values.turned n))) t) ∧
        (op = .add → t = operand)) ∧
      (m.store.IsNominal operand p.builtins.int none none →
        m'.store.Made [] (·.instanceOf p.builtins.int) t) from
    (hgoes.and hsigns).weaken fun t m' ⟨⟨h, hin⟩, hlaw⟩ => ⟨h, hin, m.store, hm.store,
      hasAll_cons.2 ⟨hoperand, hasAll_nil⟩, h.within, hlaw⟩
  unfold unary
  extract_lets b viaMember
  rw [if_neg hop]
  refine .store ?_
  by_cases hunknown : m.store.isUnknown operand = true
  · have hvia : Ensures (Query.Told p cut) m viaMember fun t _ => t = .unknown := by
      dsimp only [viaMember]
      split
      · exact callMemberD_of_isUnknown hm hoperand hasAll_nil hunknown
      · exact .ret rfl
    rw [instance?_of_isUnknown hunknown]
    have hnone : ∀ literal, ¬m.store.IsNominal operand p.builtins.int none literal :=
      fun literal h => by rw [h.isUnknown_eq] at hunknown; cases hunknown
    exact hvia.weaken fun t m' ht =>
      ⟨fun _ => ht, fun n h => absurd h (hnone _), fun h => absurd h (hnone _)⟩
  · by_cases hnumber : ∃ literal, m.store.IsNominal operand p.builtins.int none literal
    · obtain ⟨literal, hnominal⟩ := hnumber
      rw [hnominal.instance?_eq]
      dsimp only
      rw [if_pos rfl]
      split
      · rename_i k
        refine (goes_make hm hasAll_nil (works_literal hm.sound.builtins.int _)
          (keeping_add _)).weaken fun t m' ⟨_, _, hmade⟩ => ⟨fun h => absurd h hunknown, ?_, ?_⟩
        · intro n hn
          cases (hnominal.unique hn).2.2
          exact ⟨fun _ => hmade, nofun⟩
        · intro hn
          cases (hnominal.unique hn).2.2
      · refine .ret ⟨fun h => absurd h hunknown, fun n hn => ⟨nofun, fun _ => rfl⟩, fun hn => ?_⟩
        cases (hnominal.unique hn).2.2
      · rename_i hsubtract hadd
        refine (goes_make hm hasAll_nil (works_instanceOf_in hm.sound.builtins.int)
          (keeping_instanceOf _)).weaken fun t m' ⟨_, _, hmade⟩ =>
          ⟨fun h => absurd h hunknown, fun n hn => ?_, fun _ => hmade⟩
        obtain rfl := (hnominal.unique hn).2.2
        exact ⟨fun heq => absurd rfl (hsubtract n heq), fun heq => absurd rfl (hadd n heq)⟩
    · exact Ensures.trivial.weaken fun t m' _ => ⟨fun h => absurd h hunknown,
        fun n hn => absurd ⟨_, hn⟩ hnumber, fun hn => absurd ⟨_, hn⟩ hnumber⟩

/-- There is a rule for whole numbers. -/
theorem known?_of_isNominal (hm : m.Regular p) {l r : Option LiteralValue}
    (hleft : m.store.IsNominal left p.builtins.int none l)
    (hright : m.store.IsNominal right p.builtins.int none r) :
    Ensures (Query.Told p cut) m (known? p op left right) fun found m' =>
      ∃ t, found = some t ∧ m'.store.Made [] (Values.arithmetic p.builtins op 0 l r) t := by
  have hrank : Values.rank? p.builtins p.builtins.int = some 0 := if_pos (.inl rfl)
  refine .store ?_
  rw [hleft.instance?_eq, hright.instance?_eq]
  dsimp only
  rw [hrank]
  exact (goes_make hm hasAll_nil (Values.works_arithmetic hm.sound.builtins op 0 l r)
    (keeping_arithmetic _ op 0 l r)).bind fun t _ ⟨_, _, hmade⟩ => .ret ⟨t, rfl, hmade⟩

/-- There is no rule for what is unknown. -/
theorem known?_of_isUnknown
    (h : m.store.isUnknown left = true ∨ m.store.isUnknown right = true) :
    Ensures (Query.Told p cut) m (known? p op left right) fun found m' =>
      found = none ∧ m = m' := by
  refine .store ?_
  dsimp only
  split
  · rename_i hl hr
    rcases h with h | h
    · rw [instance?_of_isUnknown h] at hl
      cases hl
    · rw [instance?_of_isUnknown h] at hr
      cases hr
  · exact .ret ⟨rfl, rfl⟩

/-- An operation between two values is explained. -/
theorem explains_binary (hm : m.Regular p) (hand : op ≠ .and) (hor : op ≠ .or)
    (hcomparison : op.isComparison = false) (hleft : left.In m.store) (hright : right.In m.store)
    (hbuiltins : p.builtins = Builtins.foreknown.1) :
    Ensures (Query.Told p cut) m (binary p op left right) fun t m' =>
      m.Goes p cut m' ∧ t.In m'.store ∧ m'.Calculates p op left right t := by
  have hint : p.builtins.int.In Builtins.foreknown.2 := hbuiltins ▸ sound_foreknown.2.int
  have hgoes : Ensures (Query.Told p cut) m (binary p op left right) fun t m' =>
      m.Goes p cut m' ∧ t.In m'.store :=
    goes_of hm (works_binary (free_knowing m) op hleft hright) (changes_binary p op left right m)
  suffices hlaw : Ensures (Query.Told p cut) m (binary p op left right) fun t m' =>
      (∀ l r, m.store.IsNominal left p.builtins.int none l →
        m.store.IsNominal right p.builtins.int none r →
        m'.store.Made [] (Values.arithmetic p.builtins op 0 l r) t) ∧
      ((m.store.isUnknown left = true ∨ (∃ l, m.store.IsNominal left p.builtins.int none l) ∧
        m.store.isUnknown right = true) → t = .unknown) from
    (hgoes.and hlaw).weaken fun t m' ⟨⟨h, hin⟩, hlaw⟩ => ⟨h, hin, m.store, hm.store,
      hasAll_cons.2 ⟨hleft, hasAll_cons.2 ⟨hright, hasAll_nil⟩⟩, h.within, hlaw⟩
  unfold binary
  rw [if_neg (not_or.2 ⟨hand, hor⟩), if_neg (by rw [hcomparison]; exact Bool.false_ne_true)]
  by_cases hunknown : m.store.isUnknown left = true ∨
    (∃ l, m.store.IsNominal left p.builtins.int none l) ∧ m.store.isUnknown right = true
  -- The member of what is unknown is unknown, and a number has none.
  · have hnumbers : ∀ l r, m.store.IsNominal left p.builtins.int none l →
        ¬m.store.IsNominal right p.builtins.int none r := by
      intro l r hl hr
      rcases hunknown with h | ⟨-, h⟩
      · rw [hl.isUnknown_eq] at h
        cases h
      · rw [hr.isUnknown_eq] at h
        cases h
    refine (known?_of_isUnknown (hunknown.imp_right And.right)).bind ?_
    rintro found _ ⟨rfl, rfl⟩
    have hrest : ∀ name ∈ Values.operationNames, Ensures (Query.Told p cut) m
        (callMemberD left name [right]) fun t _ => t = .unknown := by
      intro name hname
      rcases hunknown with h | ⟨⟨l, hl⟩, -⟩
      · exact callMemberD_of_isUnknown hm hleft (hasAll_cons.2 ⟨hright, hasAll_nil⟩) h
      · exact callMemberD_of_isNominal hm hl hint hname
    dsimp only
    split
    · rename_i hname
      exact (hrest _ (Values.mem_of_operatorMember? hname)).weaken fun t m' ht =>
        ⟨fun l r hl hr => absurd hr (hnumbers l r hl), fun _ => ht⟩
    · exact .ret ⟨fun l r hl hr => absurd hr (hnumbers l r hl), fun _ => rfl⟩
  · by_cases hnumbers : ∃ l r, m.store.IsNominal left p.builtins.int none l ∧
      m.store.IsNominal right p.builtins.int none r
    · obtain ⟨l, r, hl, hr⟩ := hnumbers
      refine (known?_of_isNominal hm hl hr).bind ?_
      rintro _ m' ⟨t, rfl, hmade⟩
      refine .ret ⟨fun l' r' hl' hr' => ?_, fun h => absurd h hunknown⟩
      obtain rfl := (hl.unique hl').2.2
      obtain rfl := (hr.unique hr').2.2
      exact hmade
    · exact Ensures.trivial.weaken fun t m' _ =>
        ⟨fun l r hl hr => absurd ⟨l, r, hl, hr⟩ hnumbers, fun h => absurd h hunknown⟩

end Operations

/-! ## Displays and subscripts -/

section Displays

open Expressions

/-- The type of an entry in the display of a list is explained. -/
theorem explains_entry (hm : m.Regular p) (n : NodeId) :
    Ensures (Query.Told p cut) m (entry p n) fun t m' =>
      m.Goes p cut m' ∧ t.In m'.store ∧ m'.Enters p cut n t := by
  have hwiden : ∀ {m1 : Memory} {type : TypeId} {P : Memory → Prop}, m.Goes p cut m1 →
      type.In m1.store → (∀ m', m1.Goes p cut m' → P m') →
      Ensures (Query.Told p cut) m1 (onStore (TypeStore.widen type)) fun t m' =>
        m.Goes p cut m' ∧ t.In m'.store ∧ m'.store.Made [type] (TypeStore.widen type) t ∧ P m' :=
    fun h1 htype hP => (goes_make h1.regular (hasAll_cons.2 ⟨htype, hasAll_nil⟩) (works_widen htype)
      (keeping_widenAt _ _)).weaken fun t m' ⟨h2, hin, hmade⟩ => ⟨h1.trans h2, hin, hmade, hP m' h2⟩
  unfold entry Memory.Enters
  extract_lets next
  cases hform : p.arena.form? n with
  | none =>
    refine (goes_typeOf hm n).bind fun type m1 ⟨h1, htype, htakes⟩ => ?_
    exact (hwiden h1 htype fun m' h2 => htakes.mono h2.toRetains).weaken
      fun t m' ⟨h, hin, hmade, ht⟩ => ⟨h, hin, type, hmade, ht⟩
  | some form =>
    cases form with
    | unpack expression =>
      refine (goes_typeOf hm expression).bind fun whole m1 ⟨h1, hwhole, htakes⟩ => ?_
      refine (goes_make h1.regular (hasAll_cons.2 ⟨hwhole, hasAll_nil⟩)
        (Values.works_iteratedAt _ h1.sound.builtins) (keeping_iteratedAt _ _ _)).bind
        fun type m2 ⟨h2, htype, hmade⟩ => ?_
      exact (hwiden (h1.trans h2) htype fun m' h3 => ⟨whole, htakes.mono (h2.trans h3).toRetains,
        hmade.mono h3.within⟩).weaken fun t m' ⟨h, hin, hwidened, ht⟩ =>
          ⟨h, hin, type, hwidened, ht⟩
    | comprehension expression clauses =>
      refine (goes_typeOf hm expression).bind fun type m1 ⟨h1, htype, htakes⟩ => ?_
      exact (hwiden h1 htype fun m' h2 => htakes.mono h2.toRetains).weaken
        fun t m' ⟨h, hin, hmade, ht⟩ => ⟨h, hin, type, hmade, ht⟩
    | _ =>
      refine (goes_typeOf hm n).bind fun type m1 ⟨h1, htype, htakes⟩ => ?_
      exact (hwiden h1 htype fun m' h2 => htakes.mono h2.toRetains).weaken
        fun t m' ⟨h, hin, hmade, ht⟩ => ⟨h, hin, type, hmade, ht⟩

/-- The type of the display of a list is explained. -/
theorem explains_list (hm : m.Regular p) (entries : List NodeId) :
    Ensures (Query.Told p cut) m (display p p.builtins.list entries) fun t m' =>
      m.Goes p cut m' ∧ ∃ types item, List.Forall₂ (m'.Enters p cut) entries types ∧
        m'.store.Made types (Values.unionOrUnknown types) item ∧
        m'.store.Made [item] (·.specializedInstance p.builtins.list [item]) t := by
  have hentries := goes_mapM (P := fun m n t => m.Enters p cut n t)
    (fun h ht => ht.mono h.toRetains) (fun n hm => explains_entry hm n) hm entries
  refine hentries.bind fun types m1 ⟨h1, hin, htypes⟩ => ?_
  refine (goes_make h1.regular hin (Values.works_unionOrUnknown hin)
    (keeping_unionOrUnknown types)).bind fun item m2 ⟨h2, hitem, hmade⟩ => ?_
  have hitems := hasAll_cons.2 ⟨hitem, hasAll_nil⟩
  refine (goes_make h2.regular hitems (works_specializedInstance h2.sound.builtins.list hitems)
    (keeping_add _)).weaken fun t m3 ⟨h3, _, hdisplay⟩ => ⟨(h1.trans h2).trans h3, types, item, ?_,
      hmade.mono h3.within, hdisplay⟩
  exact htypes.imp fun _ _ h => h.mono (h2.trans h3).toRetains

/-- The type of the display of a tuple is explained. -/
theorem explains_tuple (hm : m.Regular p) (items : List NodeId) :
    Ensures (Query.Told p cut) m (do
      let types ← items.mapM typeOf
      onStore (·.specializedInstance p.builtins.tuple types)) fun t m' =>
      m.Goes p cut m' ∧ ∃ types, List.Forall₂ (m'.Takes p cut) items types ∧
        m'.store.Made types (·.specializedInstance p.builtins.tuple types) t := by
  have hitems := goes_mapM (P := fun m n t => m.Takes p cut n t) (fun h ht => ht.mono h.toRetains)
    (fun n hm => goes_typeOf hm n) hm items
  refine hitems.bind fun types m1 ⟨h1, hin, htypes⟩ => ?_
  refine (goes_make h1.regular hin (works_specializedInstance h1.sound.builtins.tuple hin)
    (keeping_add _)).weaken fun t m2 ⟨h2, _, hmade⟩ => ⟨h1.trans h2, types, ?_, hmade⟩
  exact htypes.imp fun _ _ h => h.mono h2.toRetains

/-- What stands in the brackets of a subscript has the type that its value is taken to have if it is
one value. -/
theorem explains_subscriptType (hm : m.Regular p) (items : List NodeId) :
    Ensures (Query.Told p cut) m (subscriptType p items) fun t m' =>
      m.Goes p cut m' ∧ t.In m'.store ∧
        ∀ value, items.map p.argumentValue? = [some value] → m'.Takes p cut value t := by
  by_cases hvalue : ∃ value, items.map p.argumentValue? = [some value]
  · obtain ⟨value, hvalue⟩ := hvalue
    unfold subscriptType
    rw [hvalue]
    refine (goes_typeOf hm value).weaken fun t m' ⟨h, hin, htakes⟩ => ⟨h, hin, ?_⟩
    rintro _ ⟨⟩
    exact htakes
  · exact (goes_of hm (works_subscriptType (free_knowing m) items)
      (changes_subscriptType p items m)).weaken fun t m' ⟨h, hin⟩ =>
        ⟨h, hin, fun value h => absurd ⟨value, h⟩ hvalue⟩

/-- What a subscript takes out of a tuple, or of what is unknown, is explained. -/
theorem explains_picked (hm : m.Regular p) (hbuiltins : p.builtins = Builtins.foreknown.1)
    {container subscript : TypeId} (hcontainer : container.In m.store)
    (hsubscript : subscript.In m.store) :
    Ensures (Query.Told p cut) m (picked p container subscript) fun t m' =>
      m.Goes p cut m' ∧ (m.store.isUnknown container = true → t = .unknown) ∧
      ∀ types, m.store.IsNominal container p.builtins.tuple (some types) none →
        m'.Picks p types subscript t := by
  have hgoes : Ensures (Query.Told p cut) m (picked p container subscript) fun t m' =>
      m.Goes p cut m' ∧ t.In m'.store :=
    goes_of hm (works_picked (free_knowing m) hcontainer hsubscript)
      (changes_picked p container subscript m)
  by_cases hunknown : m.store.isUnknown container = true
  · have hnone : Ensures (Query.Told p cut) m (picked p container subscript)
        fun t _ => t = .unknown := by
      refine .store ?_
      rw [instanceClass?, instance?_of_isUnknown hunknown]
      exact .ret rfl
    refine (hgoes.and hnone).weaken
      fun t m' h => ⟨h.1.1, fun _ => h.2, fun types htypes => ?_⟩
    rw [htypes.isUnknown_eq] at hunknown
    cases hunknown
  by_cases htuple : ∃ types, m.store.IsNominal container p.builtins.tuple (some types) none
  · obtain ⟨types, htuple⟩ := htuple
    obtain ⟨htext, -, -, hlist, hdictionary⟩ : _ := (hbuiltins ▸ apart_foreknown :
      p.builtins.Apart).tuple
    have htypes : m.store.HasAll types := by
      have hall : m.store.HasAll ((m.store.argumentsOf? container).getD []) :=
        hm.sound.store.hasAll_arguments
      rwa [htuple.argumentsOf?_eq] at hall
    have hall : m.store.HasAll (subscript :: types) := hasAll_cons.2 ⟨hsubscript, htypes⟩
    suffices hlaw : Ensures (Query.Told p cut) m (picked p container subscript)
        fun t m' => m.store.instanceClass? subscript ≠ some p.builtins.slice →
          (∀ type, m.store.pickedType? types subscript = some type → t = type) ∧
          (m.store.pickedType? types subscript = none →
            m'.store.Made types (Values.unionOrUnknown types) t) from
      (hgoes.and hlaw).weaken fun t m' h => ⟨h.1.1, fun hknown => absurd hknown hunknown,
        fun types' htuple' => by
          cases (htuple.unique htuple').2.1
          exact ⟨m.store, hm.store, hall, h.1.1.within, h.2⟩⟩
    refine .store ?_
    rw [htuple.instanceClass?_eq, htuple.argumentsOf?_eq]
    dsimp only [Option.getD_some]
    rw [if_neg htext, if_neg hlist, if_neg hdictionary, if_pos rfl]
    split
    · rename_i hslice
      exact Ensures.trivial.weaken fun _ _ _ h => absurd (beq_iff_eq.1 hslice) h
    · split
      · rename_i type hfound
        have hpicked : m.store.pickedType? types subscript = some type := hfound
        rw [hpicked]
        exact .ret fun _ => ⟨fun type' h => Option.some.inj h,
          fun h => absurd h (Option.some_ne_none type)⟩
      · rename_i hfound
        have hpicked : m.store.pickedType? types subscript = none := hfound
        rw [hpicked]
        exact (goes_make hm htypes (Values.works_unionOrUnknown htypes)
          (keeping_unionOrUnknown types)).weaken fun t m' h _ =>
            ⟨fun type h => absurd h.symm (Option.some_ne_none type), fun _ => h.2.2⟩
  · exact hgoes.weaken fun t m' h =>
      ⟨h.1, fun h => absurd h hunknown, fun types h => absurd ⟨types, h⟩ htuple⟩

/-- The type of a subscript is explained. -/
theorem explains_index (hm : m.Regular p) (hbuiltins : p.builtins = Builtins.foreknown.1)
    (n base : NodeId) (items : List NodeId) :
    Ensures (Query.Told p cut) m (index p n base items) fun t m' =>
      m.Goes p cut m' ∧ ∃ type, m'.Takes p cut base type ∧ m'.Subscripts p cut items type t := by
  refine (goes_typeOf hm base).bind fun baseType m1 ⟨h1, hbase, htakes⟩ => ?_
  -- A type that stands for a class is neither unknown nor that of a tuple.
  refine (?_ : Ensures (Query.Told p cut) m1 _ fun t m' => m1.Goes p cut m' ∧
    m'.Subscripts p cut items baseType t).weaken fun t m' ⟨h, hsubscripts⟩ =>
      ⟨h1.trans h, baseType, htakes.mono h.toRetains, hsubscripts⟩
  have hbases : m1.store.HasAll [baseType] := hasAll_cons.2 ⟨hbase, hasAll_nil⟩
  obtain ⟨t, hget⟩ : ∃ t, m1.store.get? baseType = some t := ⟨_, Array.getElem?_eq_getElem hbase⟩
  refine .store ?_
  rw [hget]
  dsimp only
  split
  · rename_i d hd
    obtain ⟨hinstantiable, hclass⟩ := Option.ite_none_right_eq_some.1 hd
    refine (goes_of h1.regular (works_subscriptedClassValue (free_knowing m1)
      (h1.sound.store.classIdOf?_in (Option.bind_eq_some_iff.2 ⟨_, hget, hclass⟩)) n items)
      (changes_subscriptedClassValue p n d items m1)).weaken fun t m' ⟨h, _⟩ =>
        ⟨h, m1.store, h1.regular.store, hbases, h.within, fun hunknown => ?_, fun types htuple => ?_⟩
    · rcases get?_of_isUnknown hunknown with hnone | ⟨flags, incomplete, hsome⟩
      · rw [hget] at hnone
        cases hnone
      · cases hget.symm.trans hsome
        cases hclass
    · rw [IsNominal, hget] at htuple
      rw [Option.some.inj htuple] at hinstantiable
      exact absurd hinstantiable (not_isInstantiable_value _)
  · refine (explains_subscriptType h1.regular items).bind
      fun subscript m2 ⟨h2, hsubscript, hvalue⟩ => ?_
    refine (explains_picked h2.regular hbuiltins (hbase.mono h2.grows.store) hsubscript).weaken
      fun t m3 ⟨h3, hunknown, hpicks⟩ => ⟨h2.trans h3, m1.store, h1.regular.store, hbases,
        (h2.trans h3).within, fun h => hunknown ?_, fun types htuple => ?_⟩
    · rwa [isUnknown, shape?, h2.within.get?_eq hbase]
    · exact ⟨subscript, hpicks types (htuple.mono h2.within),
        fun value h => (hvalue value h).mono h3.toRetains⟩

end Displays

end Evaluation

end TypeProbe
