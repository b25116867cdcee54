import TypeProbe.Proofs.Inference.Definitions
import TypeProbe.Proofs.Inference.Expressions

/-!
# What questions lead to

The rule for a question, on a sound memory, asks only questions that take energy or rank lower,
unless it is the rule for calls, which may pass a call on (`Query.Permits`). So do all questions
that are asked on the way to an answer (`Query.Leads`), and a question is answered exactly if there
is an end to the questions it leads to (`Query.answer_isSome_iff_ends`). An answer is the one that
is found within some depth of questions (`Query.answer_eq_some_iff`).
-/

namespace TypeProbe

open Evaluation

/-- What the rule for a question may ask. All but calls may ask anything if less energy is left, and
otherwise what ranks lower; of calls, only those for calls may ask. -/
def Query.Permits (size : Nat) (q : Query) (m : Memory) (q' : Query) (m' : Memory) : Prop :=
  (q.isCall = false ∧ m'.energy size < m.energy size) ∨
  (m'.energy size ≤ m.energy size ∧ q'.isCall = false ∧ q'.rank m'.store < q.rank m.store) ∨
  (m'.energy size ≤ m.energy size ∧ q.isCall = true ∧ q'.isCall = true)

variable {p : Program}

/-- The rule for a question works on what it is asked of, in a tree whose nodes come after their
children. It may ask what ranks lower and, unless it is the rule for calls, anything if less energy is
left; the rule for calls may ask for other calls. -/
theorem Query.works_rule_of {may : Query → Memory → Prop} (htree : p.arena.ChildrenFirst)
    {m : Memory} {q : Query} (hq : q.In m.store) (hlower : Lower p may m (q.rank m.store))
    (hdeeper : q.isCall = false → Deeper p may m)
    (hcalls : q.isCall = true → ∀ m', m.Grows m' → ∀ callee arguments,
      may (.call callee arguments) m') :
    Works p may m (q.rule p) fun a s => q.AnswerIn s a := by
  have hallows : ∀ {ι : Type} {f : ι → Query}, (∀ i, (f i).Known p) →
      (∀ i, (f i).isCall = false) → (∀ s i, (f i).rank s < q.rank m.store) → Allows may m f :=
    fun hknown hcall hrank => hlower.allows hknown hcall hrank
  cases q with
  | node n => exact works_node (hdeeper rfl) n
  | classDef n => exact works_classDef (hdeeper rfl) n
  | function n =>
    exact works_function (hdeeper rfl)
      (hallows (fun _ => trivial) (fun _ => rfl) fun _ _ => Nat.zero_lt_one)
      (hallows (fun _ => trivial) (fun _ => rfl) fun _ _ => Nat.zero_lt_one) n
  | declaration d =>
    exact works_declaration (hdeeper rfl)
      (hallows (fun _ => trivial) (fun _ => rfl) fun _ _ => Nat.zero_lt_two)
      (hallows (fun _ => trivial) (fun _ => rfl) fun _ _ => Nat.one_lt_two) d
  | hint n => exact works_hint htree hlower
  | call callee arguments =>
    exact works_call hlower (fun m' hm' found => hcalls rfl m' hm' found arguments) hq.1 hq.2
  | member object name => exact works_member hq hlower
  | returned d => exact works_returned (hdeeper rfl) d

/-- The rule for a question works on what it is asked of, and asks only what the question permits. -/
theorem Query.works_rule (htree : p.arena.ChildrenFirst) {m : Memory} {q : Query}
    (hq : q.In m.store) :
    Works p (q.Permits p.arena.size m) m (q.rule p) fun a s => q.AnswerIn s a :=
  works_rule_of htree hq
    (fun _ hm' _ _ hcall hlt => .inr (.inl ⟨hm'.energy_le _, hcall, hlt⟩))
    (fun hcall _ hlt _ _ => .inl ⟨hcall, hlt⟩)
    fun hcall _ hm' _ _ => .inr (.inr ⟨hm'.energy_le _, hcall, rfl⟩)

/-- The rule for a question works on what it is asked of, and asks only known questions. -/
theorem Query.works_rule_known (htree : p.arena.ChildrenFirst) {m : Memory} {q : Query}
    (hq : q.In m.store) :
    Works p (fun q _ => q.Known p) m (q.rule p) fun a s => q.AnswerIn s a :=
  works_rule_of htree hq (fun _ _ _ hknown _ _ => hknown) (fun _ _ _ _ hknown => hknown)
    fun _ _ _ _ _ => trivial

/-! ## Answers -/

namespace Dialogue

variable {β : Type}

/-- A dialogue that is over has its result. -/
theorem run_done (b : β) : (Dialogue.done b).run p = some b := by
  rw [run]

/-- A dialogue goes on with the answer to its question. -/
theorem run_ask (q : Query) (m : Memory) (next : q.Answer → Memory → Dialogue β) :
    (Dialogue.ask q m next).run p = (q.answer p m).bind fun r => (next r.1 r.2).run p := by
  rw [run]
  rfl

/-- A dialogue, with the answers that the rules give, comes to an end as it is described. -/
theorem Meets.of_run (htree : p.arena.ChildrenFirst) {d : Dialogue β} {b : β}
    (hrun : d.run p = some b) {may : Query → Memory → Prop} {post : β → Prop}
    (h : d.Meets (Fit p may) (Fits p) post) : post b := by
  -- On the runs that end, by the questions that they answer.
  refine run.partial_correctness p
    (fun {β} d b => ∀ (may : Query → Memory → Prop) (post : β → Prop),
    d.Meets (Fit p may) (Fits p) post → post b) ?_ d b hrun may post h
  intro run ih β d b hb may post h
  cases d with
  | done b' =>
    cases hb
    exact h
  | ask q m next =>
    obtain ⟨⟨a, m'⟩, ha, hnext⟩ := Option.bind_eq_some_iff.1 hb
    obtain ⟨⟨hm, hq, -⟩, hafter⟩ := h
    exact ih _ _ hnext may post (hafter a m' (ih _ _ ha _ _ (Query.works_rule htree hq hm)))

/-- The questions of a dialogue, with the answers that the rules give. -/
inductive Asks (p : Program) {β : Type} : Dialogue β → Query → Memory → Prop
  | now {q : Query} {m : Memory} {next : q.Answer → Memory → Dialogue β} :
    Asks p (.ask q m next) q m
  | later {q : Query} {m : Memory} {next : q.Answer → Memory → Dialogue β} {a : q.Answer}
    {m' : Memory} {q' : Query} {m'' : Memory} (ha : q.answer p m = some (a, m'))
    (h : Asks p (next a m') q' m'') : Asks p (.ask q m next) q' m''

/-- A dialogue has no result exactly if one of its questions has no answer. -/
theorem run_eq_none_iff (d : Dialogue β) :
    d.run p = none ↔ ∃ q m, d.Asks p q m ∧ q.answer p m = none := by
  induction d with
  | done b =>
    rw [run_done]
    exact ⟨nofun, fun ⟨_, _, h, _⟩ => by cases h⟩
  | ask q m next ih =>
    rw [run_ask]
    cases hanswer : q.answer p m with
    | none => exact ⟨fun _ => ⟨q, m, .now, hanswer⟩, fun _ => rfl⟩
    | some r =>
      obtain ⟨a, m'⟩ := r
      refine (ih a m').trans ⟨fun ⟨q', m'', h, hnone⟩ => ⟨q', m'', .later hanswer h, hnone⟩, ?_⟩
      rintro ⟨q', m'', h, hnone⟩
      cases h with
      | now => rw [hnone] at hanswer; cases hanswer
      | later ha h =>
        rw [hanswer] at ha
        cases ha
        exact ⟨q', m'', h, hnone⟩

/-- A dialogue comes to an end as it is described if the answers to what it asks are as they should
be. -/
theorem Meets.of_asks {d : Dialogue β} {may : Query → Memory → Prop}
    {answers : (q : Query) → Memory → q.Answer → Memory → Prop} {post : β → Prop}
    (h : d.Meets may answers post)
    (hanswers : ∀ {q : Query} {m a m'}, d.Asks p q m → q.answer p m = some (a, m') →
      answers q m a m') {r : β} (hrun : d.run p = some r) : post r := by
  induction d with
  | done r' =>
    rw [run_done] at hrun
    cases hrun
    exact h
  | ask q m next ih =>
    rw [run_ask] at hrun
    obtain ⟨⟨a, m'⟩, ha, hnext⟩ := Option.bind_eq_some_iff.1 hrun
    exact ih a m' (h.2 a m' (hanswers .now ha)) (fun hasks => hanswers (.later ha hasks)) hnext

/-- What a dialogue asks is what it may ask. -/
theorem Meets.fit_of_asks {d : Dialogue β} {may : Query → Memory → Prop} {post : β → Prop}
    (hanswers : ∀ {q m a m'}, Fit p may q m → q.answer p m = some (a, m') → Fits p q m a m')
    (h : d.Meets (Fit p may) (Fits p) post) {q : Query} {m : Memory} (hasks : d.Asks p q m) :
    Fit p may q m := by
  induction hasks with
  | now => exact h.1
  | later ha _ ih => exact ih (h.2 _ _ (hanswers h.1 ha))

end Dialogue

namespace Query

/-- A question with the memory it is asked of. -/
abbrev State := Query × Memory

/-- A question on a sound memory, about what is there. -/
def Sound (p : Program) (a : State) : Prop := a.2.Sound p.builtins ∧ a.1.In a.2.store

/-- The rule for one question asks another one. -/
def Leads (p : Program) (a b : State) : Prop := (a.1.rule p a.2).Asks p b.1 b.2

/-- There is an end to the questions that a question leads to. -/
abbrev Ends (p : Program) (a : State) : Prop := Acc (fun b a => Leads p a b) a

/-- Answers are as they should be. -/
theorem fits_of_answer (htree : p.arena.ChildrenFirst) {q : Query} {m m' : Memory}
    {a : q.Answer} (h : Sound p (q, m)) (ha : q.answer p m = some (a, m')) : Fits p q m a m' :=
  Dialogue.Meets.of_run htree ha (works_rule htree h.2 h.1)

/-- A question leads to questions that it permits, on sound memories and about what is there. -/
theorem Leads.permits (htree : p.arena.ChildrenFirst) {a b : State}
    (h : Leads p a b) (ha : Sound p a) :
    Sound p b ∧ a.1.Permits p.arena.size a.2 b.1 b.2 := by
  obtain ⟨hm, hq, hmay⟩ := (works_rule htree ha.2 ha.1).fit_of_asks
    (fun hfit => fits_of_answer htree ⟨hfit.1, hfit.2.1⟩) h
  exact ⟨⟨hm, hq⟩, hmay⟩

/-- A question without an answer leads to another one. -/
theorem exists_leads_of_answer_eq_none {a : State} (h : a.1.answer p a.2 = none) :
    ∃ b, Leads p a b ∧ b.1.answer p b.2 = none := by
  obtain ⟨q, m, hasks, hnone⟩ := (Dialogue.run_eq_none_iff _).1 h
  exact ⟨(q, m), hasks, hnone⟩

/-- A question that leads to one without an answer has none. -/
theorem Leads.answer_eq_none {a b : State} (h : Leads p a b) (hb : b.1.answer p b.2 = none) :
    a.1.answer p a.2 = none :=
  (Dialogue.run_eq_none_iff _).2 ⟨b.1, b.2, h, hb⟩

/-- There is an end to the questions that a dialogue with a result leads to. -/
theorem ends_of_run {β : Type} {d : Dialogue β} {b : β} (hrun : d.run p = some b) {a : State}
    (hasks : d.Asks p a.1 a.2) : Ends p a := by
  have key : d.run p = some b ∧ ∀ a : State, d.Asks p a.1 a.2 → Ends p a := by
    -- On the runs that end; that they do is kept, to tell which answers there are.
    refine Dialogue.run.partial_correctness p (fun d b => d.run p = some b ∧
      ∀ a : State, d.Asks p a.1 a.2 → Ends p a) ?_ d b hrun
    intro run ih β d b hb
    cases d with
    | done b' =>
      refine ⟨by rw [Dialogue.run_done]; exact hb, fun a ha => ?_⟩
      cases ha
    | ask q m next =>
      obtain ⟨⟨answer, m'⟩, ha, hnext⟩ := Option.bind_eq_some_iff.1 hb
      obtain ⟨hrule, hacc⟩ := ih _ _ ha
      obtain ⟨hrest, hlater⟩ := ih _ _ hnext
      have hanswer : q.answer p m = some (answer, m') := hrule
      refine ⟨by rw [Dialogue.run_ask, hanswer]; exact hrest, fun a hasks => ?_⟩
      obtain ⟨q', m''⟩ := a
      cases hasks with
      | now => exact .intro _ fun b hb => hacc b hb
      | later ha' h =>
        rw [hanswer] at ha'
        cases ha'
        exact hlater (q', m'') h
  exact key.2 a hasks

/-- A question is answered exactly if there is an end to the questions it leads to. -/
theorem answer_isSome_iff_ends {a : State} :
    (a.1.answer p a.2).isSome ↔ Ends p a := by
  constructor
  · intro h
    obtain ⟨r, hr⟩ := Option.isSome_iff_exists.1 h
    exact .intro _ fun b hb => ends_of_run hr hb
  · intro h
    induction h with
    | intro a _ ih =>
      rw [Option.isSome_iff_ne_none]
      intro hnone
      obtain ⟨b, hleads, hb⟩ := exists_leads_of_answer_eq_none hnone
      have hsome := ih b hleads
      rw [hb] at hsome
      cases hsome

end Query

/-! ## Answers within a depth -/

namespace Dialogue

variable {β : Type} {answers answers' : (q : Query) → Memory → Option (q.Answer × Memory)}

/-- A dialogue goes on with the answer that is given to its question. -/
theorem follow_ask (q : Query) (m : Memory) (next : q.Answer → Memory → Dialogue β) :
    (Dialogue.ask q m next).follow answers =
      (answers q m).bind fun r => (next r.1 r.2).follow answers := rfl

/-- A dialogue that has a result with some answers has it if further ones are given. -/
theorem follow_mono (h : ∀ q m r, answers q m = some r → answers' q m = some r) {d : Dialogue β}
    {b : β} (hd : d.follow answers = some b) : d.follow answers' = some b := by
  induction d with
  | done b' => exact hd
  | ask q m next ih =>
    rw [follow_ask] at hd ⊢
    obtain ⟨r, hr, hrest⟩ := Option.bind_eq_some_iff.1 hd
    rw [h q m r hr]
    exact ih r.1 r.2 hrest

/-- The question that a dialogue asks after a number of others, with the memory that it is asked of,
if the others have the given answers. -/
def asked? (answers : (q : Query) → Memory → Option (q.Answer × Memory)) :
    (before : Nat) → Dialogue β → Option (Query × Memory)
  | _, .done _ => none
  | 0, .ask q m _ => some (q, m)
  | before + 1, .ask q m next => do
    let (a, m) ← answers q m
    asked? answers before (next a m)

/-- A question that a dialogue asks with answers of the rules is one of its questions. -/
theorem asks_of_asked? (h : ∀ q m r, answers q m = some r → q.answer p m = some r) {before : Nat}
    {d : Dialogue β} {q : Query} {m : Memory} (hd : d.asked? answers before = some (q, m)) :
    d.Asks p q m := by
  induction before generalizing d with
  | zero =>
    cases d with
    | done b => cases hd
    | ask q' m' next =>
      cases hd
      exact .now
  | succ before ih =>
    cases d with
    | done b => cases hd
    | ask q' m' next =>
      obtain ⟨⟨a, m''⟩, ha, hrest⟩ := Option.bind_eq_some_iff.1 hd
      exact .later (h q' m' _ ha) (ih hrest)

/-- The result of a dialogue is the one with the answers of the rules. -/
theorem follow_answer (d : Dialogue β) : d.follow (Query.answer p) = d.run p := by
  induction d with
  | done b => rw [run_done]; rfl
  | ask q m next ih =>
    rw [follow_ask, run_ask]
    exact congrArg _ (funext fun r => ih r.1 r.2)

end Dialogue

namespace Query

/-- A question that is answered within a depth is answered so within any greater one. -/
theorem answerWithin_mono {depth depth' : Nat} (hle : depth ≤ depth') {q : Query} {m : Memory}
    {r : q.Answer × Memory} (h : q.answerWithin p depth m = some r) :
    q.answerWithin p depth' m = some r := by
  induction depth generalizing depth' q m with
  | zero => cases h
  | succ depth ih =>
    obtain ⟨depth', rfl⟩ := Nat.exists_eq_succ_of_ne_zero (Nat.ne_of_gt (Nat.zero_lt_of_lt hle))
    exact Dialogue.follow_mono (fun q m r hr => ih (Nat.le_of_succ_le_succ hle) hr) h

/-- An answer within a depth is the answer. -/
theorem answer_of_answerWithin {depth : Nat} {q : Query} {m : Memory} {r : q.Answer × Memory}
    (h : q.answerWithin p depth m = some r) : q.answer p m = some r := by
  induction depth generalizing q m with
  | zero => cases h
  | succ depth ih =>
    have hrule : (q.rule p m).follow (Query.answer p) = some r :=
      Dialogue.follow_mono (fun q m r hr => ih hr) h
    rw [Dialogue.follow_answer] at hrule
    exact hrule

/-- A question that is asked after others with answers within a depth is led to. -/
theorem leads_of_asked? {depth before : Nat} {a b : State}
    (h : (a.1.rule p a.2).asked? (answerWithin p depth) before = some b) : Leads p a b :=
  Dialogue.asks_of_asked? (fun _ _ _ => answer_of_answerWithin) h

/-- A dialogue with a result has it with the answers within some depth. -/
theorem exists_follow_of_run {β : Type} {d : Dialogue β} {b : β} (hrun : d.run p = some b) :
    ∃ depth, d.follow (answerWithin p depth) = some b := by
  refine Dialogue.run.partial_correctness p
    (fun {β} d b => ∃ depth, d.follow (answerWithin p depth) = some b) ?_ d b hrun
  intro run ih β d b hb
  cases d with
  | done b' => exact ⟨0, hb⟩
  | ask q m next =>
    obtain ⟨⟨a, m'⟩, ha, hnext⟩ := Option.bind_eq_some_iff.1 hb
    obtain ⟨depth, hanswer⟩ := ih _ _ ha
    obtain ⟨depth', hrest⟩ := ih _ _ hnext
    -- The greater depth is enough for the question and for what comes after it.
    refine ⟨max (depth + 1) depth', ?_⟩
    have hquestion : q.answerWithin p (max (depth + 1) depth') m = some (a, m') :=
      answerWithin_mono (Nat.le_max_left _ _) hanswer
    rw [Dialogue.follow_ask, hquestion]
    exact Dialogue.follow_mono (fun q m r hr => answerWithin_mono (Nat.le_max_right _ _) hr) hrest

/-- A question has the answer that it has within some depth. -/
theorem answer_eq_some_iff {q : Query} {m : Memory} {r : q.Answer × Memory} :
    q.answer p m = some r ↔ ∃ depth, q.answerWithin p depth m = some r := by
  constructor
  · intro h
    obtain ⟨depth, hrule⟩ := exists_follow_of_run h
    exact ⟨depth + 1, hrule⟩
  · rintro ⟨depth, h⟩
    exact answer_of_answerWithin h

end Query

end TypeProbe
