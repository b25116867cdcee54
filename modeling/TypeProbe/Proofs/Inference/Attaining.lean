import TypeProbe.Proofs.Inference.Explained
import TypeProbe.Proofs.Types.Ordinary

/-!
# Evaluations that come to an end

What the rules ensure holds of answers that there are. An evaluation attains what is described if it
has a result and the result is so (`Evaluation.Attains`). Operations on ordinary types do: a member
for an operation is found neither in a value of a class that is known beforehand nor in a union of
such values, and of what is unknown nothing is known, so that nothing that is defined in the module
is called (`Evaluation.attains_binary`).
-/

namespace TypeProbe

open TypeStore

/-- A memory that spares another one, in which a type is ordinary. -/
def Memory.Makes (m : Memory) (t : TypeId) (m' : Memory) : Prop :=
  m.Spares m' ∧ m'.store.IsOrdinary t

namespace Evaluation

variable {p : Program} {m : Memory} {α β : Type}

/-- From a memory, an evaluation comes to an end, and the end is as it is described. -/
def Attains (p : Program) (m : Memory) (e : Evaluation α) (P : α → Memory → Prop) : Prop :=
  ∃ a m', (e m).run p = some (a, m') ∧ P a m'

namespace Attains

variable {e : Evaluation α} {P : α → Memory → Prop}

/-- A result that is given at once leaves the memory. -/
theorem ret {a : α} (h : P a m) : Attains p m (pure a) P := ⟨a, m, Dialogue.run_done _, h⟩

/-- What is known of the end may be weakened. -/
theorem weaken {P' : α → Memory → Prop} (h : Attains p m e P)
    (hP : ∀ a m', P a m' → P' a m') : Attains p m e P' := by
  obtain ⟨a, m', hrun, ha⟩ := h
  exact ⟨a, m', hrun, hP a m' ha⟩

/-- One evaluation after another. -/
theorem bind {f : α → Evaluation β} {P' : β → Memory → Prop} (h : Attains p m e P)
    (hf : ∀ a m', P a m' → Attains p m' (f a) P') : Attains p m (e >>= f) P' := by
  obtain ⟨a, m', hrun, ha⟩ := h
  obtain ⟨b, m'', hrun', hb⟩ := hf a m' ha
  refine ⟨b, m'', ?_, hb⟩
  show ((e m).bind fun r => f r.1 r.2).run p = _
  rw [Dialogue.run_bind, hrun]
  exact hrun'

/-- A function of the result. -/
theorem map {f : α → β} {P' : β → Memory → Prop} (h : Attains p m e P)
    (hf : ∀ a m', P a m' → P' (f a) m') : Attains p m (f <$> e) P' := by
  rw [map_eq_pure_bind]
  exact h.bind fun a m' ha => ret (hf a m' ha)

/-- The memory may be looked at. -/
theorem get {f : Memory → Evaluation β} {P : β → Memory → Prop}
    (h : Attains p m (f m) P) : Attains p m (MonadState.get >>= f) P := h

/-- The store may be looked at. -/
theorem store {f : TypeStore → Evaluation β} {P : β → Memory → Prop}
    (h : Attains p m (f m.store) P) : Attains p m (Evaluation.store >>= f) P := h

/-- The store may be worked on. -/
theorem onStore {work : TypeStore → α × TypeStore} :
    Attains p m (Evaluation.onStore work) fun a m' =>
      a = (work m.store).1 ∧ m' = { m with store := (work m.store).2 } :=
  ⟨_, _, Dialogue.run_done _, rfl, rfl⟩

/-- Work on the store that keeps stores makes a type if the type is ordinary. -/
theorem make {work : TypeStore → TypeId × TypeStore} (hwork : Keeping work)
    (h : (work m.store).2.IsOrdinary (work m.store).1) :
    Attains p m (Evaluation.onStore work) m.Makes := by
  refine onStore.weaken ?_
  rintro _ _ ⟨rfl, rfl⟩
  exact ⟨.of_store (hwork m.store), h⟩

/-- A question may be asked that has an answer. -/
theorem ask {q : Query} {P : q.Answer → Memory → Prop} {a : q.Answer} {m' : Memory}
    (h : q.answer p m = some (a, m')) (hP : P a m') :
    Attains p m (Evaluation.ask q) P := by
  refine ⟨a, m', ?_, hP⟩
  show (Dialogue.ask q m fun a m => .done (a, m)).run p = _
  rw [Dialogue.run_ask, h]
  exact Dialogue.run_done _

/-- What the rules ensure of the end, whatever is cut off, holds of it. -/
theorem told {P' : α → Memory → Prop} (htree : p.arena.ChildrenFirst)
    (hbuiltins : p.builtins = Builtins.foreknown.1) (h : Attains p m e P)
    (h' : Ensures (Query.Told p Query.Any) m e P') :
    Attains p m e fun a m' => P a m' ∧ P' a m' := by
  obtain ⟨a, m', hrun, ha⟩ := h
  refine ⟨a, m', hrun, ha, h'.of_run (fun q m => ?_) hrun⟩
  exact (lawful_rule htree hbuiltins q m fun _ => trivial).weaken
    fun _ _ h hfit => h hfit.1 hfit.2.1

end Attains

/-! ## Operations -/

/-- Nothing is known of a call of what is unknown or provisional. -/
theorem answer_call_of_shape? {callee : TypeId} {isProvisional : Bool}
    (h : m.store.shape? callee = some (.unknown isProvisional)) (arguments : List TypeId) :
    (Query.call callee arguments).answer p m = some (.unknown, m) := by
  obtain ⟨⟨flags, shape⟩, hget, rfl⟩ := Option.map_eq_some_iff.1 h
  refine Query.answer_of_rule (q := .call callee arguments) ?_
  show Calls.call p callee arguments m = _
  unfold Calls.call
  rw [Query.store_bind, hget]
  rfl

section Operations

/-- Members of several types are looked for one after the other. -/
theorem attains_members {members : List TypeId} {name : String} (h : ∀ part ∈ members,
      ∃ found, (Query.member part name).answer p m = some (found, m) ∧ ∀ t ∈ found, t = .unknown) :
    Attains p m (members.filterMapM fun part => ask (.member part name)) fun found m' =>
      m' = m ∧ ∀ t ∈ found, t = .unknown := by
  induction members with
  | nil => exact .ret ⟨rfl, nofun⟩
  | cons part members ih =>
    rw [List.filterMapM_cons]
    obtain ⟨found, hanswer, hunknown⟩ := h part List.mem_cons_self
    have hrest := ih fun part hpart => h part (List.mem_cons_of_mem _ hpart)
    refine Attains.bind (P := fun a m' => m' = m ∧ ∀ t ∈ a, t = .unknown)
      (.ask hanswer ⟨rfl, hunknown⟩) ?_
    rintro found _ ⟨rfl, hunknown⟩
    cases found with
    | none => exact hrest
    | some t =>
      refine hrest.bind ?_
      rintro rest _ ⟨rfl, hall⟩
      exact .ret ⟨rfl, List.forall_mem_cons.2 ⟨hunknown t rfl, hall⟩⟩

variable (hm : m.Regular p)
include hm

/-- Of members for operations of ordinary types there are none, or nothing is known of them. -/
theorem answer_member_of_isOrdinary {object : TypeId} (hobject : m.store.IsOrdinary object)
    {name : String} (hname : name ∈ Values.operationNames) :
    ∃ found, (Query.member object name).answer p m = some (found, m) ∧
      ∀ t ∈ found, t = .unknown := by
  -- On the types that unions are made of.
  induction hobject with
  | @value object d arguments literal h hd =>
    refine ⟨none, Query.answer_of_rule (q := .member object name) ?_, nofun⟩
    show Calls.member p object name m = _
    unfold Calls.member
    rw [Query.store_bind, h]
    dsimp only
    rw [if_neg (not_isInstantiable_value _), hm.foreknows.member?_eq_none hd hname]
    rfl
  | @unknown object incomplete h =>
    obtain ⟨⟨flags, shape⟩, hget, rfl⟩ := Option.map_eq_some_iff.1 h
    refine ⟨some .unknown, Query.answer_of_rule (q := .member object name) ?_,
      fun t ht => (Option.mem_some_iff.1 ht).symm⟩
    show Calls.member p object name m = _
    unfold Calls.member
    rw [Query.store_bind, hget]
    rfl
  | @never object h =>
    obtain ⟨⟨flags, shape⟩, hget, rfl⟩ := Option.map_eq_some_iff.1 h
    refine ⟨none, Query.answer_of_rule (q := .member object name) ?_, nofun⟩
    show Calls.member p object name m = _
    unfold Calls.member
    rw [Query.store_bind, hget]
    rfl
  | @union object members h _ ih =>
    obtain ⟨⟨flags, shape⟩, hget, rfl⟩ := Option.map_eq_some_iff.1 h
    have hrule : Attains p m (Calls.member p object name)
        fun found m' => m' = m ∧ ∀ t ∈ found, t = .unknown := by
      refine .store ?_
      rw [hget]
      refine (attains_members ih).bind ?_
      rintro found m ⟨rfl, hall⟩
      cases found with
      | nil => exact .ret ⟨rfl, nofun⟩
      | cons t found =>
        refine Attains.onStore.bind ?_
        rintro _ _ ⟨rfl, rfl⟩
        rw [unionOf_eq_unknown hm.foreknows (List.cons_ne_nil t found) hall]
        exact .ret ⟨rfl, fun t ht => (Option.mem_some_iff.1 ht).symm⟩
    obtain ⟨found, _, hrun, rfl, hall⟩ := hrule
    exact ⟨found, hrun, hall⟩

/-- Nothing is known of a call of what is unknown. -/
theorem answer_call_unknown (arguments : List TypeId) :
    (Query.call .unknown arguments).answer p m = some (.unknown, m) :=
  answer_call_of_shape? hm.foreknows.shape?_unknown arguments

/-- Nothing is known of a call of a member for an operation of an ordinary type. -/
theorem attains_callMemberD {object : TypeId} (hobject : m.store.IsOrdinary object)
    {name : String} (hname : name ∈ Values.operationNames) (arguments : List TypeId) :
    Attains p m (callMemberD object name arguments) fun t m' => m' = m ∧ t = .unknown := by
  obtain ⟨found, hanswer, hunknown⟩ := answer_member_of_isOrdinary hm hobject hname
  have hcall : Attains p m (callMember object name arguments)
      fun a m' => m' = m ∧ ∀ t ∈ a, t = .unknown := by
    refine Attains.bind (P := fun a m' => m' = m ∧ ∀ t ∈ a, t = .unknown)
      (.ask hanswer ⟨rfl, hunknown⟩) ?_
    rintro found _ ⟨rfl, hunknown⟩
    cases found with
    | none => exact .ret ⟨rfl, nofun⟩
    | some t =>
      obtain rfl := hunknown t rfl
      refine Attains.bind (P := fun t m' => m' = _ ∧ t = .unknown)
        (.ask (answer_call_unknown hm arguments) ⟨rfl, rfl⟩) ?_
      rintro t _ ⟨rfl, rfl⟩
      exact .ret ⟨rfl, fun t ht => (Option.mem_some_iff.1 ht).symm⟩
  refine hcall.bind ?_
  rintro a _ ⟨rfl, hunknown⟩
  refine .ret ⟨rfl, ?_⟩
  cases a with
  | none => rfl
  | some t => exact hunknown t rfl

variable (hbuiltins : p.builtins = Builtins.foreknown.1)
include hbuiltins

/-- The rules for operations between values of known classes make ordinary types. -/
theorem attains_known? {left right : TypeId} (hleft : m.store.IsOrdinary left) (op : Operator) :
    Attains p m (Operations.known? p op left right) fun found m' =>
      (found = none ∧ m' = m) ∨ ∃ t, found = some t ∧ m.Makes t m' := by
  have hb : p.builtins.In Builtins.foreknown.2 := hbuiltins ▸ sound_foreknown.2
  have hmade : ∀ {work : TypeStore → TypeId × TypeStore}, Keeping work →
      (work m.store).2.IsOrdinary (work m.store).1 →
      Attains p m (do return some (← onStore work)) fun found m' =>
        (found = none ∧ m' = m) ∨ ∃ t, found = some t ∧ m.Makes t m' :=
    fun hwork h => (Attains.make hwork h).bind fun t m' hmakes => .ret (.inr ⟨t, rfl, hmakes⟩)
  refine .store ?_
  cases hl : m.store.instance? left with
  | none => exact .ret (.inl ⟨rfl, rfl⟩)
  | some l =>
    obtain ⟨l, leftLiteral⟩ := l
    cases hr : m.store.instance? right with
    | none => exact .ret (.inl ⟨rfl, rfl⟩)
    | some r =>
      obtain ⟨r, rightLiteral⟩ := r
      dsimp only
      split
      · exact hmade (keeping_arithmetic _ _ _ _ _) (isOrdinary_arithmetic hm.store hb _ _ _ _)
      · split_ifs
        · exact hmade (keeping_instanceOf _) (isOrdinary_instanceOf hm.store hb.text)
        · obtain ⟨arguments, hnominal, hd⟩ := hleft.isNominal hl
          exact hmade (keeping_widenAt _ _) (isOrdinary_widen hm.store hnominal hd)
        · exact .ret (.inl ⟨rfl, rfl⟩)

/-- An operation between values of ordinary types makes an ordinary type. -/
theorem attains_binary {left right : TypeId} (hleft : m.store.IsOrdinary left)
    (hright : m.store.IsOrdinary right) (op : Operator) :
    Attains p m (Operations.binary p op left right) m.Makes := by
  have hb : p.builtins.In Builtins.foreknown.2 := hbuiltins ▸ sound_foreknown.2
  have hunknown : m.Makes .unknown m := ⟨.refl m, isOrdinary_unknown hm.foreknows⟩
  unfold Operations.binary
  split
  · refine .make (keeping_unionOf _) (isOrdinary_unionOf hm.foreknows fun t ht => ?_)
    rcases List.mem_pair.1 ht with rfl | rfl
    · exact hleft
    · exact hright
  split
  · exact .make (keeping_instanceOf _) (isOrdinary_instanceOf hm.store hb.bool)
  refine (attains_known? hm hbuiltins hleft op).bind ?_
  rintro found m1 (⟨rfl, rfl⟩ | ⟨t, rfl, hmakes⟩)
  · dsimp only
    split
    · rename_i name hmember
      refine (attains_callMemberD hm hleft (Values.mem_of_operatorMember? hmember) _).weaken ?_
      rintro t _ ⟨rfl, rfl⟩
      exact hunknown
    · exact .ret hunknown
  · exact .ret hmakes

end Operations

end Evaluation

end TypeProbe
