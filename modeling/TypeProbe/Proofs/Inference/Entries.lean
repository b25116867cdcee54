import TypeProbe.Proofs.Inference.Records

/-!
# What is kept of functions

Types stay as they are, and so does whether a function is one of several overloads
(`TypeStore.Stays`). What is kept of a function definition is changed by its own rule only, and only
if nothing was kept of it (`Query.lookup_eq_of_not_reaches`). Where more is to be known of answers
than that they change the memory in some way, it is told with the questions that a rule asks of
which memories, given what the answers to them tell; from the rules it passes on to the answers
(`Query.answers_of_ends`).
-/

namespace TypeProbe

namespace TypeStore

/-- What is set of the function of a type, if it is the type of one. -/
def core? (s : TypeStore) (type : TypeId) : Option FunctionCore :=
  (s.functionOf? type).map FunctionDetail.core

/-- Whether the function of a type is one of several overloads, if it is the type of one. -/
def mark? (s : TypeStore) (type : TypeId) : Option Bool := (s.core? type).map (·.isOverload)

/-- A store in which the types of another one have stayed, and what is set of its functions. -/
structure Stays (s s' : TypeStore) : Prop where
  /-- Types stay. -/
  get? : ∀ id t, s.get? id = some t → s'.get? id = some t
  /-- What is set of functions stays. -/
  cores : ∀ d k, (s.function? d).map FunctionDetail.core = some k →
    (s'.function? d).map FunctionDetail.core = some k

variable {s s' s'' : TypeStore} {type : TypeId}

/-- An overload is marked as one. -/
theorem isOverload_eq (s : TypeStore) (type : TypeId) :
    Definitions.isOverload s type = (s.mark? type).getD false := by
  unfold Definitions.isOverload mark? core?
  cases s.functionOf? type with
  | none => rfl
  | some f => rfl

namespace Stays

/-- All stays if nothing is changed. -/
theorem refl (s : TypeStore) : s.Stays s := ⟨fun _ _ h => h, fun _ _ h => h⟩

/-- What stays twice stays. -/
theorem trans (h : s.Stays s') (h' : s'.Stays s'') : s.Stays s'' :=
  ⟨fun id t ht => h'.get? id t (h.get? id t ht), fun d k hk => h'.cores d k (h.cores d k hk)⟩

/-- What is kept stays. -/
theorem of_keeps (h : s.Keeps s') : s.Stays s' where
  get? := h.get?
  cores d k hk := by
    rw [function?, ← Array.getElem?_map] at hk ⊢
    rwa [h.functions]

/-- All stays if a function is added. -/
theorem addFunction (s : TypeStore) (f : FunctionDetail) : s.Stays (s.addFunction f).2 where
  get? _ _ h := h
  cores d k hk := by
    obtain ⟨f', hf', rfl⟩ := Option.map_eq_some_iff.1 hk
    have hd : d.index < s.functions.size := (Array.getElem?_eq_some_iff.1 hf').1
    have hstays : (s.addFunction f).2.function? d = some f' :=
      (Array.getElem?_push_lt hd).trans ((Array.getElem?_eq_getElem hd).symm.trans hf')
    rw [hstays]
    rfl

/-- All stays if a class is added. -/
theorem addClass (s : TypeStore) (c : ClassDetail) : s.Stays (s.addClass c).2 :=
  ⟨fun _ _ h => h, fun _ _ h => h⟩

/-- All stays if a class is changed. -/
theorem modifyClass (s : TypeStore) (d : ClassId) (change : ClassDetail → ClassDetail) :
    s.Stays (s.modifyClass d change) := ⟨fun _ _ h => h, fun _ _ h => h⟩

/-- What a type is stays. -/
theorem shape? {shape : TypeShape} (h : s.Stays s') (htype : s.shape? type = some shape) :
    s'.shape? type = some shape := by
  obtain ⟨t, ht, rfl⟩ := Option.map_eq_some_iff.1 htype
  rw [TypeStore.shape?, h.get? type t ht]
  rfl

/-- What is set of the function of a type stays. -/
theorem core? {k : FunctionCore} (h : s.Stays s') (htype : s.core? type = some k) :
    s'.core? type = some k := by
  obtain ⟨f, hf, rfl⟩ := Option.map_eq_some_iff.1 htype
  obtain ⟨d, hd, hfunction⟩ := Option.bind_eq_some_iff.1 hf
  obtain ⟨t, ht, hdetail⟩ := Option.bind_eq_some_iff.1 hd
  obtain ⟨f', hf', hsame⟩ :=
    Option.map_eq_some_iff.1 (h.cores d f.core (by rw [hfunction]; rfl))
  have hstays : s'.functionOf? type = some f' := by
    rw [functionOf?, h.get? type t ht, Option.bind_some, hdetail, Option.bind_some, hf']
  rw [TypeStore.core?, hstays, ← hsame]
  rfl

/-- Whether a function is one of several overloads stays. -/
theorem mark? {b : Bool} (h : s.Stays s') (htype : s.mark? type = some b) :
    s'.mark? type = some b := by
  obtain ⟨k, hk, rfl⟩ := Option.map_eq_some_iff.1 htype
  rw [TypeStore.mark?, h.core? hk]
  rfl

end Stays

end TypeStore

/-! ## From the rules to the answers -/

namespace Dialogue

variable {p : Program} {α : Type} {d : Dialogue α} {may : Query → Memory → Prop}
  {answers : (q : Query) → Memory → q.Answer → Memory → Prop} {post : α → Prop}

/-- What a dialogue asks is what it may ask, and it comes to an end as it is described, if the
answers to what it asks are as they should be. -/
theorem Meets.of_asked (h : d.Meets may answers post)
    (hanswers : ∀ {q : Query} {m : Memory} {a : q.Answer} {m' : Memory}, d.Asks p q m → may q m →
      q.answer p m = some (a, m') → answers q m a m') :
    (∀ {q m}, d.Asks p q m → may q m) ∧ ∀ {r}, d.run p = some r → post r := by
  -- On the dialogue: only answers that it gets are known of, so it may go on after those alone.
  induction d with
  | done r' =>
    refine ⟨fun hasks => ?_, fun hrun => ?_⟩
    · cases hasks
    · rw [run_done] at hrun
      cases hrun
      exact h
  | ask q m next ih =>
    have hnext : ∀ {a : q.Answer} {m' : Memory}, q.answer p m = some (a, m') → _ := fun ha =>
      ih _ _ (h.2 _ _ (hanswers .now h.1 ha)) fun hasks => hanswers (.later ha hasks)
    refine ⟨fun hasks => ?_, fun hrun => ?_⟩
    · cases hasks with
      | now => exact h.1
      | later ha hasks => exact (hnext ha).1 hasks
    · rw [run_ask] at hrun
      obtain ⟨r, ha, hrest⟩ := Option.bind_eq_some_iff.1 hrun
      exact (hnext ha).2 hrest

/-- More may be asked, and less may be known of the end. -/
theorem Meets.imp {may' : Query → Memory → Prop} {post' : α → Prop} (h : d.Meets may answers post)
    (hmay : ∀ q m, may q m → may' q m) (hpost : ∀ r, post r → post' r) :
    d.Meets may' answers post' := by
  induction d with
  | done r => exact hpost r h
  | ask q m next ih => exact ⟨hmay q m h.1, fun a m' ha => ih a m' (h.2 a m' ha)⟩

/-- More is known of the end of a dialogue that is described in another way, too. -/
theorem Meets.and_ensures {post' : α → Prop} (h : d.Meets may answers post)
    (h' : d.Meets (fun _ _ => True) answers post') :
    d.Meets may answers fun r => post r ∧ post' r := by
  induction d with
  | done r => exact ⟨h, h'⟩
  | ask q m next ih => exact ⟨h.1, fun a m' ha => ih a m' (h.2 a m' ha) (h'.2 a m' ha)⟩

/-- A dialogue that changes the memory as a relation allows asks its questions of memories that are
changed so. -/
theorem ChangesBy.meets_asks {R : Memory → Memory → Prop} [Tolerant R] {m : Memory}
    {d : Dialogue (α × Memory)} (h : d.ChangesBy R m) :
    d.Meets (fun _ m' => R m m') (Query.AnswersBy R) fun r => R m r.2 := by
  -- The memory it began with stays the same while the one it has come to goes on.
  have key : ∀ {d : Dialogue (α × Memory)} {m'}, R m m' → d.ChangesBy R m' →
      d.Meets (fun _ m' => R m m') (Query.AnswersBy R) fun r => R m r.2 := by
    intro d
    induction d with
    | done r => exact fun hm h => Tolerant.trans hm h
    | ask q m'' next ih =>
      intro m' hm h
      have hasked := Tolerant.trans hm h.1
      exact ⟨hasked, fun a m3 ha => ih a m3 (Tolerant.trans hasked ha) (h.2 a m3 ha)⟩
  exact key (Tolerant.refl m) h

end Dialogue

namespace Query

open Evaluation

variable {p : Program} {n : NodeId} {m m' : Memory}

/-- The answers on the way from a question are as they should be if each rule makes them so: of each
question, and of the memory it is asked of, something is known, and a rule that has to do with that
asks only such questions, and comes to the end that should be, given that the answers to these are
as they should be. -/
theorem answers_of_ends {known : State → Prop}
    {answers : (q : Query) → Memory → q.Answer → Memory → Prop}
    (hrules : ∀ a, known a → (a.1.rule p a.2).Meets
      (fun q m => Leads p a (q, m) → known (q, m))
      (fun q m r m' => Leads p a (q, m) ∧ q.answer p m = some (r, m') ∧ answers q m r m')
      fun r => answers a.1 a.2 r.1 r.2)
    {a : State} (hends : Ends p a) (ha : known a) {r : a.1.Answer}
    (hanswer : a.1.answer p a.2 = some (r, m')) : answers a.1 a.2 r m' := by
  induction hends generalizing m' with
  | intro a _ ih =>
    refine ((hrules a ha).of_asked fun hasks hmay hanswer' => ?_).2 hanswer
    exact ⟨hasks, hanswer', ih (_, _) hasks (hmay hasks) hanswer'⟩

/-! ## What is kept of one function -/

/-- A memory in which the same is kept of a function definition. -/
def SameEntry (n : NodeId) (m m' : Memory) : Prop := m'.functions.lookup n = m.functions.lookup n

instance : Tolerant (SameEntry n) where
  spares h := congrArg (List.lookup n) h.functions
  trans h h' := h'.trans h

/-- The rules for other questions leave what is kept of a function definition. -/
theorem sameEntry_rule {q : Query} (hq : q ≠ .function n) :
    ChangesBy (SameEntry n) (q.rule p) := by
  obtain hplain | hdefinition := Bool.eq_false_or_eq_true q.isPlain
  · exact changes_plain p (fun _ _ _ _ => rfl) hplain
  cases q with
  | node k => exact changes_node p (fun _ _ => rfl) fun _ _ _ _ => rfl
  | classDef k =>
    exact fun m => changes_classDef p (fun _ _ => rfl) (fun _ _ => rfl) fun _ _ _ => rfl
  | function k =>
    have hk : n ≠ k := fun heq => hq (heq ▸ rfl)
    exact changes_function p (fun m types => TypeStore.lookup_cons_of_ne hk m.functions types)
      fun _ _ _ _ => rfl
  | _ => cases hdefinition

/-- An answer leaves what is kept of a function definition if it does not lead to it while nothing
is kept of it. -/
theorem lookup_eq_of_not_reaches {a : State} (hends : Ends p a)
    (hkept : ∀ m₃, Reaches p a (.function n, m₃) → m₃.functions.lookup n ≠ none)
    {r : a.1.Answer} (ha : a.1.answer p a.2 = some (r, m')) : SameEntry n a.2 m' := by
  induction hends generalizing m' with
  | intro a _ ih =>
    obtain ⟨q, m⟩ := a
    -- On what the question leads to; a definition that is kept is not worked out again.
    by_cases hq : q = .function n
    · subst hq
      rw [memory_eq_of_isKept (Option.isSome_iff_ne_none.2 (hkept m .refl)) ha]
      exact Tolerant.refl m
    · exact (sameEntry_rule hq m).meets.of_asks (fun hasks ha' => ih (_, _) hasks
        (fun m₃ h => hkept m₃ (.head (b := (_, _)) hasks h)) ha') ha

end Query

end TypeProbe
