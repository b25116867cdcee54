import TypeProbe.Proofs.Inference.Questions

/-!
# How calls are passed on

A called value passes the call on to its member for calls, overloads pass it on to the one that is
chosen, and a union passes it on to each of its members (`Query.PassesOn`). These are the calls that
the rule for calls asks for (`Query.leads_call_iff`).
-/

namespace TypeProbe

open Evaluation

/-- Whether a type stands for values of a class, and not for the class. -/
def TypeStore.IsValue (s : TypeStore) (id : TypeId) : Prop :=
  ∃ t detail arguments literal, s.get? id = some t ∧ t.isInstantiable = false ∧
    t.shape = .nominal detail arguments literal

variable {p : Program}

namespace Dialogue

variable {α β : Type}

/-- One dialogue after another has the result of the other one. -/
theorem run_bind {d : Dialogue α} {f : α → Dialogue β} :
    (d.bind f).run p = (d.run p).bind fun a => (f a).run p := by
  induction d with
  | done a =>
    rw [run_done]
    rfl
  | ask q m next ih =>
    show (Dialogue.ask q m fun a m => (next a m).bind f).run p = _
    rw [run_ask, run_ask, Option.bind_assoc]
    exact congrArg _ (funext fun r => ih r.1 r.2)

/-- The questions of one dialogue after another are those of the one, and those of the other if the
one has a result. -/
theorem asks_bind_iff {d : Dialogue α} {f : α → Dialogue β} {q : Query} {m : Memory} :
    (d.bind f).Asks p q m ↔ d.Asks p q m ∨ ∃ a, d.run p = some a ∧ (f a).Asks p q m := by
  induction d with
  | done a =>
    constructor
    · intro h
      exact .inr ⟨a, run_done a, h⟩
    · rintro (h | ⟨a', ha, h⟩)
      · cases h
      · rw [run_done] at ha
        cases ha
        exact h
  | ask q' m' next ih =>
    constructor
    · intro h
      cases h with
      | now => exact .inl .now
      | later ha h =>
        rcases (ih _ _).1 h with hfirst | ⟨a, hrun, hasks⟩
        · exact .inl (.later ha hfirst)
        · refine .inr ⟨a, ?_, hasks⟩
          rw [run_ask, ha]
          exact hrun
    · rintro (h | ⟨a, hrun, hasks⟩)
      · cases h with
        | now => exact .now
        | later ha h => exact .later ha ((ih _ _).2 (.inl h))
      · rw [run_ask] at hrun
        obtain ⟨⟨answer, m''⟩, ha, hrest⟩ := Option.bind_eq_some_iff.1 hrun
        exact .later ha ((ih _ _).2 (.inr ⟨a, hrest, hasks⟩))

end Dialogue

namespace Query

/-- Calls of several callees, one after the other, are answered. -/
inductive AnswersAll (p : Program) (arguments : List TypeId) :
    List TypeId → Memory → Memory → Prop
  | nil {m : Memory} : AnswersAll p arguments [] m m
  | cons {callee : TypeId} {callees : List TypeId} {result : TypeId} {m m' m'' : Memory}
    (h : (Query.call callee arguments).answer p m = some (result, m'))
    (hs : AnswersAll p arguments callees m' m'') : AnswersAll p arguments (callee :: callees) m m''

/-- A callee passes a call on to another one, which is called next. -/
inductive PassesOn (p : Program) (arguments : List TypeId) :
    TypeId × Memory → TypeId × Memory → Prop
  /-- A value passes it on to its member for calls. -/
  | value {callee found : TypeId} {m m' : Memory} (hvalue : m.store.IsValue callee)
    (hmember : (Query.member callee "__call__").answer p m = some (some found, m')) :
    PassesOn p arguments (callee, m) (found, m')
  /-- Overloads pass it on to the first one that takes so many arguments, or else to the last. -/
  | overload {callee found : TypeId} {overloads : List TypeId} {m : Memory}
    (hshape : m.store.shape? callee = some (.overloaded overloads))
    (hfound : (overloads.find? (Calls.accepts m.store arguments.length)).or overloads.getLast? =
      some found) :
    PassesOn p arguments (callee, m) (found, m)
  /-- A union passes it on to a member when those before it have been called. -/
  | part {callee found : TypeId} {front back : List TypeId} {m m' : Memory}
    (hshape : m.store.shape? callee = some (.union (front ++ found :: back)))
    (hfront : AnswersAll p arguments front m m') : PassesOn p arguments (callee, m) (found, m')

/-- The calls that a call of a member asks for. -/
theorem asks_callMemberD_iff {object : TypeId} {name : String} {arguments : List TypeId}
    {m m' : Memory} {q : Query} (hcall : q.isCall = true) :
    (callMemberD object name arguments m).Asks p q m' ↔ ∃ found,
      (Query.member object name).answer p m = some (some found, m') ∧
        q = .call found arguments := by
  have heq : callMemberD object name arguments m = .ask (.member object name) m fun found m' =>
      found.elim (.done (.unknown, m')) fun found =>
        .ask (.call found arguments) m' fun t m'' => .done (t, m'') :=
    congrArg (Dialogue.ask _ m) (funext fun found => funext fun m' => by cases found <;> rfl)
  rw [heq]
  constructor
  · intro h
    cases h with
    | now => cases hcall
    | @later _ _ _ found _ _ _ ha h =>
      cases found with
      | none => cases h
      | some found =>
        cases h with
        | now => exact ⟨found, ha, rfl⟩
        | later _ h => cases h
  · rintro ⟨found, ha, rfl⟩
    exact .later ha .now

/-- The calls of several callees, one after the other. -/
theorem asks_mapM_call_iff {callees arguments : List TypeId} {m m' : Memory} {q : Query} :
    ((callees.mapM fun callee => Evaluation.ask (.call callee arguments)) m).Asks p q m' ↔
      ∃ front found back, callees = front ++ found :: back ∧ AnswersAll p arguments front m m' ∧
        q = .call found arguments := by
  induction callees generalizing m with
  | nil =>
    constructor
    · intro h
      cases h
    · rintro ⟨front, found, back, heq, -⟩
      simp at heq
  | cons callee callees ih =>
    have heq : ((callee :: callees).mapM fun callee => Evaluation.ask (.call callee arguments)) m =
        .ask (.call callee arguments) m fun result m' =>
          ((callees.mapM fun callee => Evaluation.ask (.call callee arguments)) m').bind fun r =>
            .done (result :: r.1, r.2) := by
      rw [List.mapM_cons]
      rfl
    rw [heq]
    constructor
    · intro h
      cases h with
      | now => exact ⟨[], callee, callees, rfl, .nil, rfl⟩
      | later ha h =>
        rcases Dialogue.asks_bind_iff.1 h with hasks | ⟨r, -, hdone⟩
        · obtain ⟨front, found, back, rfl, hall, rfl⟩ := ih.1 hasks
          exact ⟨callee :: front, found, back, rfl, .cons ha hall, rfl⟩
        · cases hdone
    · rintro ⟨front, found, back, hsplit, hall, rfl⟩
      cases hall with
      | nil =>
        cases hsplit
        exact .now
      | cons ha hall =>
        cases hsplit
        exact .later ha (Dialogue.asks_bind_iff.2 (.inl (ih.2 ⟨_, found, back, rfl, hall, rfl⟩)))

/-- The memory may be looked at. -/
theorem get_bind {α : Type} (f : Memory → Evaluation α) (m : Memory) :
    (MonadState.get >>= f) m = f m m := rfl

/-- The store may be looked at. -/
theorem store_bind {α : Type} (f : TypeStore → Evaluation α) (m : Memory) :
    (Evaluation.store >>= f) m = f m.store m := rfl

section Kinds

variable {callee : TypeId} {arguments : List TypeId} {m m' : Memory} {q : Query}

/-- A called value has its member for calls called. -/
theorem asks_call_value (h : m.store.IsValue callee) (hcall : q.isCall = true) :
    (Calls.call p callee arguments m).Asks p q m' ↔ ∃ found,
      (Query.member callee "__call__").answer p m = some (some found, m') ∧
        q = .call found arguments := by
  obtain ⟨⟨flags, shape⟩, detail, typeArguments, literal, hget, hvalue, rfl⟩ := h
  have heq : Calls.call p callee arguments m = callMemberD callee "__call__" arguments m := by
    unfold Calls.call
    rw [store_bind, hget]
    dsimp only
    rw [if_neg (by simp [hvalue])]
  rw [heq]
  exact asks_callMemberD_iff hcall

/-- Of called overloads the one that is chosen is called. -/
theorem asks_call_overloaded {overloads : List TypeId}
    (h : m.store.shape? callee = some (.overloaded overloads)) :
    (Calls.call p callee arguments m).Asks p q m' ↔ ∃ found,
      (overloads.find? (Calls.accepts m.store arguments.length)).or overloads.getLast? =
        some found ∧ q = .call found arguments ∧ m' = m := by
  obtain ⟨⟨flags, shape⟩, hget, rfl⟩ := Option.map_eq_some_iff.1 h
  unfold Calls.call
  rw [store_bind, hget]
  dsimp only
  cases (overloads.find? (Calls.accepts m.store arguments.length)).or overloads.getLast? with
  | none => exact ⟨(by cases ·), fun ⟨_, h, _⟩ => (by cases h)⟩
  | some chosen =>
    constructor
    · intro h
      cases h with
      | now => exact ⟨chosen, rfl, rfl, rfl⟩
      | later _ h => cases h
    · rintro ⟨found, heq, rfl, rfl⟩
      cases heq
      exact .now

/-- The members of a called union are called one after the other. -/
theorem asks_call_union {members : List TypeId}
    (h : m.store.shape? callee = some (.union members)) :
    (Calls.call p callee arguments m).Asks p q m' ↔ ∃ front found back,
      members = front ++ found :: back ∧ AnswersAll p arguments front m m' ∧
        q = .call found arguments := by
  obtain ⟨⟨flags, shape⟩, hget, rfl⟩ := Option.map_eq_some_iff.1 h
  have heq : Calls.call p callee arguments m =
      ((members.mapM fun part => Evaluation.ask (.call part arguments)) m).bind fun r =>
        onStore (·.unionOf r.1) r.2 := by
    unfold Calls.call
    rw [store_bind, hget]
    rfl
  rw [heq, Dialogue.asks_bind_iff, asks_mapM_call_iff]
  exact ⟨fun h => h.resolve_right fun ⟨_, _, h⟩ => (by cases h), .inl⟩

/-- Evaluations that ask for no calls lead to none. -/
theorem not_asks_call (htree : p.arena.ChildrenFirst) {α : Type}
    {e : Evaluation α} {post : α → TypeStore → Prop} (hm : m.Sound p.builtins)
    (h : Works p (fun q _ => q.isCall = false) m e post) (hasks : (e m).Asks p q m') :
    q.isCall = false :=
  ((h hm).fit_of_asks (fun hfit => fits_of_answer htree ⟨hfit.1, hfit.2.1⟩) hasks).2.2

/-- Only calls of values, overloads and unions lead to calls. -/
theorem exists_of_asks_call (htree : p.arena.ChildrenFirst)
    (h : Sound p (.call callee arguments, m)) (hcall : q.isCall = true)
    (hasks : (Calls.call p callee arguments m).Asks p q m') :
    m.store.IsValue callee ∨ (∃ overloads, m.store.shape? callee = some (.overloaded overloads)) ∨
      ∃ members, m.store.shape? callee = some (.union members) := by
  unfold Calls.call at hasks
  rw [store_bind] at hasks
  cases hget : m.store.get? callee with
  | none =>
    rw [hget] at hasks
    cases hasks
  | some t =>
    obtain ⟨flags, shape⟩ := t
    have hshape := TypeStore.shape?_of_get? hget
    rw [hget] at hasks
    cases shape with
    | nominal detail typeArguments literal =>
      cases hclass : TypeRecord.isInstantiable ⟨flags, .nominal detail typeArguments literal⟩ with
      | false => exact .inl ⟨_, detail, typeArguments, literal, hget, hclass, rfl⟩
      | true =>
        dsimp only at hasks
        rw [if_pos hclass] at hasks
        cases typeArguments with
        | none => split at hasks <;> cases hasks
        | some types => split at hasks <;> cases hasks
    | function detail receiver openParameters =>
      have hnot := not_asks_call htree h.1
        (works_functionResult (fun _ _ _ => rfl) _ _ h.2.2) hasks
      rw [hcall] at hnot
      cases hnot
    | overloaded overloads => exact .inr (.inl ⟨overloads, hshape⟩)
    | union members => exact .inr (.inr ⟨members, hshape⟩)
    | _ => cases hasks

end Kinds

/-- The calls that the rule for calls asks for are those that a call is passed on to. -/
theorem leads_call_iff (htree : p.arena.ChildrenFirst) {callee : TypeId}
    {arguments : List TypeId} {m m' : Memory} {q : Query} (hcall : q.isCall = true)
    (h : Sound p (.call callee arguments, m)) :
    Leads p (.call callee arguments, m) (q, m') ↔
      ∃ found, q = .call found arguments ∧ PassesOn p arguments (callee, m) (found, m') := by
  show (Calls.call p callee arguments m).Asks p q m' ↔ _
  constructor
  · intro hasks
    rcases exists_of_asks_call htree h hcall hasks with hvalue | ⟨_, hshape⟩ | ⟨_, hshape⟩
    · obtain ⟨found, hmember, rfl⟩ := (asks_call_value hvalue hcall).1 hasks
      exact ⟨found, rfl, .value hvalue hmember⟩
    · obtain ⟨found, hfound, rfl, rfl⟩ := (asks_call_overloaded hshape).1 hasks
      exact ⟨found, rfl, .overload hshape hfound⟩
    · obtain ⟨front, found, back, rfl, hfront, rfl⟩ := (asks_call_union hshape).1 hasks
      exact ⟨found, rfl, .part hshape hfront⟩
  · rintro ⟨found, rfl, hpasses⟩
    cases hpasses with
    | value hvalue hmember => exact (asks_call_value hvalue hcall).2 ⟨found, hmember, rfl⟩
    | overload hshape hfound => exact (asks_call_overloaded hshape).2 ⟨found, hfound, rfl, rfl⟩
    | part hshape hfront => exact (asks_call_union hshape).2 ⟨_, found, _, rfl, hfront, rfl⟩

/-- A callee that is no value passes a call on to a type that was there before. -/
theorem PassesOn.index_lt {callee found : TypeId} {arguments : List TypeId} {m m' : Memory}
    (h : PassesOn p arguments (callee, m) (found, m')) (hs : m.store.Sound)
    (hvalue : ¬m.store.IsValue callee) : found.index < callee.index := by
  cases h with
  | value h _ => exact absurd h hvalue
  | overload hshape hfound =>
    refine hs.parts callee _ hshape found ?_
    rcases Option.or_eq_some_iff.1 hfound with hfind | ⟨-, hlast⟩
    · exact List.mem_of_find?_eq_some hfind
    · exact List.mem_of_getLast? hlast
  | part hshape _ => exact hs.parts callee _ hshape found (by simp [TypeShape.parts])

/-- A value passes a call on to the member for calls of its class, if that is a value as well and no
property. -/
theorem passesOn_of_member? {callee found : TypeId} {t : TypeRecord} {detail : ClassId}
    {typeArguments : Option (List TypeId)} {literal : Option LiteralValue} {m : Memory}
    (arguments : List TypeId) (hget : m.store.get? callee = some t)
    (hclass : t.isInstantiable = false) (hshape : t.shape = .nominal detail typeArguments literal)
    (hmember : m.store.member? detail "__call__" = some found) (hfound : m.store.IsValue found)
    (hgetter : m.getters.lookup found = none) :
    PassesOn p arguments (callee, m) (found, m) := by
  obtain ⟨⟨flags, shape⟩, foundDetail, foundArguments, foundLiteral, hget', -, rfl⟩ := hfound
  have hbound : Calls.bound p found callee true m = .done (found, m) := by
    unfold Calls.bound
    rw [get_bind, hgetter, TypeStore.shape?_of_get? hget']
    rfl
  have hrule : Calls.member p callee "__call__" m = .done (some found, m) := by
    unfold Calls.member
    rw [store_bind, hget]
    dsimp only
    rw [hshape]
    dsimp only
    rw [if_neg (by simp [hclass]), hmember]
    exact congrArg (·.bind fun r => .done (some r.1, r.2)) hbound
  have hanswer : (Query.member callee "__call__").answer p m = some (some found, m) := by
    show (Calls.member p callee "__call__" m).run p = _
    rw [hrule, Dialogue.run_done]
  exact .value ⟨t, detail, typeArguments, literal, hget, hclass, hshape⟩ hanswer

end Query

end TypeProbe
