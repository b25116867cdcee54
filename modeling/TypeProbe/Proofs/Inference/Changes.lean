import TypeProbe.Proofs.Inference.Guards
import TypeProbe.Proofs.Inference.Works
import TypeProbe.Proofs.Types.Keeping

/-!
# How evaluation changes the memory

Only the rules for nodes, for definitions and for functions without a name change what is kept of
definitions and nodes, and only the rule for declarations what is kept of those; all others change
the memory in ways that do not matter for that (`Memory.Spares`). A relation between memories that
allows such changes is `Tolerant`, and `Lenient` if it allows that classes are changed in what their
definitions do not set. An evaluation changes the memory by a relation (`Evaluation.ChangesBy`) if
between any two of its questions, before the first and after the last one, it changes the memory
only as the relation allows, provided that the answers do. Unlike what an evaluation does as a
whole, this tells about every moment of it.
-/

namespace TypeProbe

/-- A memory with the same definitions and the same types of nodes as another one. -/
structure Memory.Keeps (m m' : Memory) : Prop where
  /-- The store keeps the types, classes and functions. -/
  store : m.store.Keeps m'.store
  /-- The types of nodes are the same. -/
  nodeTypes : m'.nodeTypes = m.nodeTypes
  /-- The types of class definitions are the same. -/
  classes : m'.classes = m.classes
  /-- The types of function definitions are the same. -/
  functions : m'.functions = m.functions

namespace Memory.Keeps

variable {m m' m'' : Memory}

/-- A memory keeps its own. -/
theorem refl (m : Memory) : m.Keeps m := ⟨.refl _, rfl, rfl, rfl⟩

end Memory.Keeps

/-- A memory that keeps what another one does, with all classes and the types of declarations as
they were. -/
structure Memory.Spares (m m' : Memory) : Prop extends m.Keeps m' where
  /-- The classes are the same. -/
  spared : m'.store.classes = m.store.classes
  /-- The types of declarations are the same. -/
  declarationTypes : m'.declarationTypes = m.declarationTypes

namespace Memory.Spares

/-- A memory spares its own. -/
theorem refl (m : Memory) : m.Spares m := ⟨.refl m, rfl, rfl⟩

/-- A memory spares what its store does. -/
theorem of_store {m : Memory} {s : TypeStore} (h : m.store.Spares s) :
    m.Spares { m with store := s } := ⟨⟨h.toKeeps, rfl, rfl, rfl⟩, h.spared, rfl⟩

end Memory.Spares

/-- A relation between memories that allows all changes but those of classes, of definitions and of
the types of nodes and declarations. -/
class Tolerant (R : Memory → Memory → Prop) : Prop where
  /-- Other changes are allowed. -/
  spares : ∀ {m m'}, m.Spares m' → R m m'
  /-- What is allowed may be done twice. -/
  trans : ∀ {m m' m''}, R m m' → R m' m'' → R m m''

/-- Nothing has to change. -/
theorem Tolerant.refl {R : Memory → Memory → Prop} [Tolerant R] (m : Memory) : R m m :=
  spares (.refl m)

/-- A relation between memories that allows to change a class in what its definition does not
set. -/
def MayChange (R : Memory → Memory → Prop) (d : ClassId) : Prop :=
  ∀ (m : Memory) (change : ClassDetail → ClassDetail), (∀ c, (change c).core = c.core) →
    R m { m with store := m.store.modifyClass d change }

/-- Where all changes of a class that leave its definition are allowed, these are. -/
theorem MayChange.of_modifies {R : Memory → Memory → Prop} {d : ClassId}
    (h : ∀ (m : Memory) (change : ClassDetail → ClassDetail),
      (∀ c, (change c).declaration = c.declaration) →
      R m { m with store := m.store.modifyClass d change }) : MayChange R d :=
  fun m change hcore => h m change fun c => congrArg ClassCore.declaration (hcore c)

/-- A relation between memories that allows all changes but those of definitions and of the types of
nodes. -/
class Lenient (R : Memory → Memory → Prop) : Prop extends Tolerant R where
  /-- Other changes are allowed. -/
  keeps : ∀ {m m'}, m.Keeps m' → R m m'
  spares h := keeps h.toKeeps

/-- The type of a declaration may be kept. -/
theorem Lenient.keepsDeclaration {R : Memory → Memory → Prop} [Lenient R] (m : Memory) (n : NodeId)
    (type : TypeId) : R m { m with declarationTypes := (n, type) :: m.declarationTypes } :=
  keeps ⟨.refl _, rfl, rfl, rfl⟩

/-- Any class may be changed in what its definition does not set. -/
theorem Lenient.mayChange {R : Memory → Memory → Prop} [Lenient R] (d : ClassId) :
    MayChange R d :=
  fun m _ h => keeps ⟨TypeStore.keeps_modifyClass m.store d h, rfl, rfl, rfl⟩

/-- Answers that change the memory as a relation allows. -/
def Query.AnswersBy (R : Memory → Memory → Prop) (q : Query) (m : Memory) (_ : q.Answer)
    (m' : Memory) : Prop := R m m'

/-- A dialogue that starts from a memory changes it between its questions and up to its end only as
a relation allows, provided that the answers do. -/
def Dialogue.ChangesBy {α : Type} (R : Memory → Memory → Prop) :
    Dialogue (α × Memory) → Memory → Prop
  | .done r, m => R m r.2
  | .ask _ m' next, m => R m m' ∧ ∀ a m'', R m' m'' → (next a m'').ChangesBy R m''

namespace Dialogue.ChangesBy

variable {α β : Type} {R : Memory → Memory → Prop} [Tolerant R] {m m' : Memory}
  {d : Dialogue (α × Memory)}

/-- An allowed change may come first. -/
theorem head (hm : R m m') (h : d.ChangesBy R m') : d.ChangesBy R m := by
  cases d with
  | done r => exact Tolerant.trans hm h
  | ask q m'' next => exact ⟨Tolerant.trans hm h.1, h.2⟩

/-- One dialogue after another. -/
theorem bind {f : α × Memory → Dialogue (β × Memory)} (h : d.ChangesBy R m)
    (hf : ∀ a m', R m m' → (f (a, m')).ChangesBy R m') : (d.bind f).ChangesBy R m := by
  -- What has been done before the part that is left is kept as a change from `m`.
  have key : ∀ {d : Dialogue (α × Memory)} {m'}, R m m' → d.ChangesBy R m' →
      (d.bind f).ChangesBy R m' := by
    intro d
    induction d with
    | done r => exact fun hm h => head h (hf r.1 r.2 (Tolerant.trans hm h))
    | ask q m' next ih =>
      intro m1 hm h
      exact ⟨h.1, fun a m'' ha =>
        ih a m'' (Tolerant.trans (Tolerant.trans hm h.1) ha) (h.2 a m'' ha)⟩
  exact key (Tolerant.refl m) h

/-- As a whole, a dialogue changes the memory as the relation allows. -/
theorem meets (h : d.ChangesBy R m) :
    d.Meets (fun _ _ => True) (Query.AnswersBy R) fun r => R m r.2 := by
  have key : ∀ {d : Dialogue (α × Memory)} {m'}, R m m' → d.ChangesBy R m' →
      d.Meets (fun _ _ => True) (Query.AnswersBy R) fun r => R m r.2 := by
    intro d
    induction d with
    | done r => exact fun hm h => Tolerant.trans hm h
    | ask q m'' next ih =>
      intro m' hm h
      refine ⟨.intro, fun a m3 ha => ih a m3 ?_ (h.2 a m3 ha)⟩
      exact Tolerant.trans (Tolerant.trans hm h.1) ha
  exact key (Tolerant.refl m) h

end Dialogue.ChangesBy

namespace Evaluation

/-- An evaluation that changes the memory, at every moment, only as a relation allows, provided that
the answers to its questions do. -/
def ChangesBy {α : Type} (R : Memory → Memory → Prop) (e : Evaluation α) : Prop :=
  ∀ m, (e m).ChangesBy R m

variable {α β : Type} {R : Memory → Memory → Prop}

namespace ChangesBy

/-- The memory may be looked at. -/
theorem get_at {f : Memory → Evaluation β} {m : Memory} (h : (f m m).ChangesBy R m) :
    ((MonadState.get >>= f) m).ChangesBy R m := h

/-- The memory may be looked at. -/
theorem get {f : Memory → Evaluation β} (h : ∀ m, ChangesBy R (f m)) :
    ChangesBy R (MonadState.get >>= f) := fun m => h m m

/-- The store may be looked at. -/
theorem store {f : TypeStore → Evaluation β} (h : ∀ s, ChangesBy R (f s)) :
    ChangesBy R (Evaluation.store >>= f) := fun m => h m.store m

/-- The memory may be changed as the relation allows. -/
theorem allowed {change : Memory → Memory} (h : ∀ m, R m (change m)) :
    ChangesBy R (modify change : Evaluation PUnit) := h

/-- The store may be worked on as the relation allows. -/
theorem work {work : TypeStore → α × TypeStore}
    (h : ∀ m : Memory, R m { m with store := (work m.store).2 }) :
    ChangesBy R (Evaluation.onStore work) := h

variable [Tolerant R]

/-- The store may be worked on as the relation allows, and the evaluation goes on with the result. -/
theorem work_at {work : TypeStore → α × TypeStore} {f : α → Evaluation β} {m : Memory}
    (h : R m { m with store := (work m.store).2 }) (hf : ChangesBy R (f (work m.store).1)) :
    ((Evaluation.onStore work >>= f) m).ChangesBy R m := (hf _).head h

/-- A result that is given at once leaves the memory. -/
theorem ret (a : α) : ChangesBy R (pure a) := fun m => Tolerant.refl (R := R) m

/-- One evaluation after another. -/
theorem bind {e : Evaluation α} {f : α → Evaluation β} (h : ChangesBy R e)
    (hf : ∀ a, ChangesBy R (f a)) : ChangesBy R (e >>= f) :=
  fun m => (h m).bind fun a m' _ => hf a m'

/-- A function of the result. -/
theorem map {e : Evaluation α} {f : α → β} (h : ChangesBy R e) : ChangesBy R (f <$> e) := by
  rw [map_eq_pure_bind]
  exact h.bind fun a => ret (f a)

/-- A question may be asked. -/
theorem ask (q : Query) : ChangesBy R (Evaluation.ask q) :=
  fun m => ⟨Tolerant.refl m, fun _ m' _ => Tolerant.refl (R := R) m'⟩

/-- What keeps stores may be done to the store. -/
theorem onStore {work : TypeStore → α × TypeStore} (h : TypeStore.Keeping work) :
    ChangesBy R (Evaluation.onStore work) :=
  ChangesBy.work fun m => Tolerant.spares (.of_store (h m.store))

/-- What keeps stores may be done to the store. -/
theorem edit {change : TypeStore → TypeStore} (h : ∀ s : TypeStore, s.Spares (change s)) :
    ChangesBy R (Evaluation.edit change) :=
  allowed fun m => Tolerant.spares (.of_store (h m.store))

/-- The memory may be changed where that does not matter. -/
theorem change {change : Memory → Memory} (h : ∀ m : Memory, m.Spares (change m)) :
    ChangesBy R (modify change : Evaluation PUnit) :=
  allowed fun m => Tolerant.spares (h m)

/-- An evaluation for each element of a list. -/
theorem mapM {f : α → Evaluation β} (h : ∀ a, ChangesBy R (f a)) (as : List α) :
    ChangesBy R (as.mapM f) := by
  induction as with
  | nil => exact ret []
  | cons a as ih =>
    rw [List.mapM_cons]
    exact (h a).bind fun b => ih.bind fun bs => ret (b :: bs)

/-- An evaluation for each element of a list, of which some have results. -/
theorem filterMapM {f : α → Evaluation (Option β)} (h : ∀ a, ChangesBy R (f a)) (as : List α) :
    ChangesBy R (as.filterMapM f) := by
  induction as with
  | nil => exact ret []
  | cons a as ih =>
    rw [List.filterMapM_cons]
    refine (h a).bind fun b => ?_
    cases b with
    | none => exact ih
    | some b => exact ih.bind fun bs => ret (b :: bs)

/-- An evaluation that goes through a list with what it has so far. -/
theorem foldlM {f : β → α → Evaluation β} (h : ∀ b a, ChangesBy R (f b a)) (b : β) (as : List α) :
    ChangesBy R (as.foldlM f b) := by
  induction as generalizing b with
  | nil => exact ret b
  | cons a as ih =>
    rw [List.foldlM_cons]
    exact (h b a).bind fun b' => ih b'

/-- An evaluation for each element of a list. -/
theorem forM {f : α → Evaluation Unit} (h : ∀ a, ChangesBy R (f a)) (as : List α) :
    ChangesBy R (as.forM f) := by
  induction as with
  | nil => exact ret PUnit.unit
  | cons a as ih => exact (h a).bind fun _ => ih

end ChangesBy

variable [Tolerant R]

/-! ## Questions -/

/-- The type of a node may be asked for. -/
theorem changes_typeOf (n : NodeId) : ChangesBy R (typeOf n) :=
  (ChangesBy.ask _).bind fun _ => .ret _

/-- A member may be called. -/
theorem changes_callMemberD (object : TypeId) (name : String) (arguments : List TypeId) :
    ChangesBy R (callMemberD object name arguments) := by
  refine ChangesBy.bind ((ChangesBy.ask _).bind fun found => ?_) fun _ => .ret _
  cases found with
  | none => exact .ret none
  | some callee => exact (ChangesBy.ask _).bind fun _ => .ret _

/-- Guarded work changes the memory as what is guarded does, if its result may be kept. -/
theorem changes_guarded {κ : Type} [DecidableEq κ] {slot : GuardSlot κ} {key : κ}
    {provisional : α} {work : Evaluation α} {keep : α → Memory → Memory}
    (hput : ∀ g (m : Memory), m.Spares (slot.put g m)) (hwork : ChangesBy R work)
    (hkeep : ∀ a m, R m (keep a m)) :
    ChangesBy R (guarded slot key provisional work keep) := by
  refine fun m => ChangesBy.get_at ?_
  rcases (slot.guard m).enter_cases key with ⟨-, henter⟩ | ⟨-, -, henter⟩ | ⟨-, -, henter⟩
  · rw [henter]
    exact Tolerant.refl (R := R) m
  · rw [henter]
    exact Tolerant.refl (R := R) m
  rw [henter]
  show ((work (slot.put _ m)).bind fun r =>
    .done (r.1, keep r.1 (slot.put ((slot.guard r.2).leave key) r.2))).ChangesBy R m
  refine Dialogue.ChangesBy.head (Tolerant.spares (hput _ m)) ((hwork _).bind fun a m' _ => ?_)
  exact Tolerant.trans (Tolerant.spares (hput _ m')) (hkeep a _)

/-! ## As a whole -/

/-- From a memory, an evaluation comes to an end as it is described, provided that the answers to
its questions are as they should be. -/
def Ensures {α : Type} (answers : (q : Query) → Memory → q.Answer → Memory → Prop) (m : Memory)
    (e : Evaluation α) (post : α → Memory → Prop) : Prop :=
  (e m).Meets (fun _ _ => True) answers fun r => post r.1 r.2

namespace Ensures

variable {answers : (q : Query) → Memory → q.Answer → Memory → Prop} {m : Memory}
  {e : Evaluation α} {post : α → Memory → Prop}

/-- A result that is given at once leaves the memory. -/
theorem ret {a : α} (h : post a m) : Ensures answers m (pure a) post := h

/-- What is known of the end may be weakened. -/
theorem weaken {post' : α → Memory → Prop} (h : Ensures answers m e post)
    (hpost : ∀ a m', post a m' → post' a m') : Ensures answers m e post' :=
  Dialogue.Meets.weaken h fun r => hpost r.1 r.2

/-- One evaluation after another. -/
theorem bind {f : α → Evaluation β} {post' : β → Memory → Prop} (h : Ensures answers m e post)
    (hf : ∀ a m', post a m' → Ensures answers m' (f a) post') :
    Ensures answers m (e >>= f) post' :=
  Dialogue.Meets.bind h fun r => hf r.1 r.2

/-- A function of the result. -/
theorem map {f : α → β} {post' : β → Memory → Prop} (h : Ensures answers m e post)
    (hf : ∀ a m', post a m' → post' (f a) m') : Ensures answers m (f <$> e) post' := by
  rw [map_eq_pure_bind]
  exact h.bind fun a m' ha => ret (hf a m' ha)

/-- The memory may be looked at. -/
theorem get {f : Memory → Evaluation β} {post : β → Memory → Prop}
    (h : Ensures answers m (f m) post) : Ensures answers m (MonadState.get >>= f) post := h

/-- The store may be looked at. -/
theorem store {f : TypeStore → Evaluation β} {post : β → Memory → Prop}
    (h : Ensures answers m (f m.store) post) : Ensures answers m (Evaluation.store >>= f) post := h

/-- The store may be worked on. -/
theorem onStore {work : TypeStore → α × TypeStore} :
    Ensures answers m (Evaluation.onStore work) fun a m' =>
      a = (work m.store).1 ∧ m' = { m with store := (work m.store).2 } := ⟨rfl, rfl⟩

/-- The store may be changed. -/
theorem edit {change : TypeStore → TypeStore} :
    Ensures answers m (Evaluation.edit change) fun _ m' =>
      m' = { m with store := change m.store } := rfl

/-- The memory may be changed. -/
theorem modify {change : Memory → Memory} :
    Ensures answers m (modify change : Evaluation PUnit) fun _ m' => m' = change m := rfl

/-- A question may be asked. -/
theorem ask {q : Query} : Ensures answers m (Evaluation.ask q) (answers q m) :=
  ⟨.intro, fun _ _ h => h⟩

/-- Whatever the answers are, there is an end. -/
theorem trivial : Ensures answers m e fun _ _ => True := by
  show (e m).Meets _ _ fun _ => True
  induction e m with
  | done r => exact .intro
  | ask q m next ih => exact ⟨.intro, fun a m' _ => ih a m'⟩

/-- What changes the memory at every moment only as a relation allows does so as a whole. -/
theorem of_changes {R : Memory → Memory → Prop} [Tolerant R] (h : ChangesBy R e) :
    Ensures (Query.AnswersBy R) m e fun _ m' => R m m' :=
  (h m).meets

/-- What changes the memory only as a relation allows may come after what does. -/
theorem of_changes_after {R : Memory → Memory → Prop} [Tolerant R] {m' : Memory} (hm : R m m')
    (h : ChangesBy R e) : Ensures (Query.AnswersBy R) m' e fun _ m'' => R m m'' :=
  (of_changes h).weaken fun _ _ h' => Tolerant.trans hm h'

end Ensures

/-- Guarded work comes to an end as it is described if what is guarded does, and if the provisional
answer is as described too. -/
theorem ensures_guarded {answers : (q : Query) → Memory → q.Answer → Memory → Prop} {m : Memory}
    {κ : Type} [DecidableEq κ] {slot : GuardSlot κ} {key : κ} {provisional : α}
    {work : Evaluation α} {keep : α → Memory → Memory} {post : α → Memory → Prop}
    (hprovisional : ((slot.guard m).enter key).1 ≠ .entered → post provisional m)
    (hwork : ((slot.guard m).enter key).1 = .entered →
      Ensures answers (slot.put ((slot.guard m).enter key).2 m) work fun a m' =>
        post a (keep a (slot.put ((slot.guard m').leave key) m'))) :
    Ensures answers m (guarded slot key provisional work keep) post := by
  refine .get ?_
  rcases hentry : (slot.guard m).enter key with ⟨entry, g⟩
  rw [hentry] at hprovisional hwork
  cases entry with
  | entered =>
    show ((work (slot.put g m)).bind fun r =>
      .done (r.1, keep r.1 (slot.put ((slot.guard r.2).leave key) r.2))).Meets _ _ _
    exact Dialogue.Meets.bind (hwork rfl) fun _ hr => hr
  | cycle => exact .ret (hprovisional nofun)
  | depthExceeded => exact .ret (hprovisional nofun)

end Evaluation

/-! ## Answers -/

/-- Where every rule ensures that answers are as they should be, provided that those to its own
questions are, what an evaluation ensures holds of its result. -/
theorem Evaluation.Ensures.of_run {p : Program} {α : Type}
    {answers : (q : Query) → Memory → q.Answer → Memory → Prop}
    (hrules : ∀ q m, Ensures answers m (q.rule p) (answers q m)) {e : Evaluation α} {m : Memory}
    {post : α → Memory → Prop} (h : Ensures answers m e post) {r : α × Memory}
    (hrun : (e m).run p = some r) : post r.1 r.2 := by
  -- On the runs that end, by the questions that they answer.
  refine Dialogue.run.partial_correctness p (fun {β} d b => ∀ post : β → Prop,
    d.Meets (fun _ _ => True) answers post → post b) ?_ _ _ hrun _ h
  intro run ih β d b hb post hd
  cases d with
  | done b' =>
    cases hb
    exact hd
  | ask q m next =>
    obtain ⟨⟨a, m'⟩, ha, hnext⟩ := Option.bind_eq_some_iff.1 hb
    exact ih _ _ hnext post (hd.2 a m' (ih _ _ ha _ (hrules q m)))

/-- Where every rule changes the memory only as a relation allows, answers do. -/
theorem Query.changes_of_answer {p : Program} {R : Memory → Memory → Prop} [Tolerant R]
    (hrules : ∀ q : Query, Evaluation.ChangesBy R (q.rule p)) {q : Query} {m m' : Memory}
    {a : q.Answer} (h : q.answer p m = some (a, m')) : R m m' := by
  have hrule : Evaluation.Ensures (AnswersBy R) m (q.rule p) fun _ m' => R m m' :=
    .of_changes (hrules q)
  exact hrule.of_run (fun q _ => .of_changes (hrules q)) h

/-! ## Answers to questions about sound memories -/

/-- Answers that fit, and of which something else is known, if the question may be asked, and is asked
of a sound memory and about what is there. -/
def Query.SafelyWithin (p : Program) (may : Query → Memory → Prop)
    (answers : (q : Query) → Memory → q.Answer → Memory → Prop)
    (q : Query) (m : Memory) (a : q.Answer) (m' : Memory) : Prop :=
  Evaluation.Fit p may q m → Evaluation.Fits p q m a m' ∧ answers q m a m'

/-- Answers that fit, and of which something else is known, if the question is asked of a sound
memory and about what is there. -/
def Query.Safely (p : Program) (answers : (q : Query) → Memory → q.Answer → Memory → Prop)
    (q : Query) (m : Memory) (a : q.Answer) (m' : Memory) : Prop :=
  m.Sound p.builtins → q.In m.store → Evaluation.Fits p q m a m' ∧ answers q m a m'

/-- Answers that fit and change the memory as a relation allows, to questions about sound
memories. -/
abbrev Query.SafelyBy (p : Program) (R : Memory → Memory → Prop) :
    (q : Query) → Memory → q.Answer → Memory → Prop := Query.Safely p (Query.AnswersBy R)

/-- Any question may be asked. -/
abbrev Query.Anything : Query → Memory → Prop := fun _ _ => True

/-- What is known of the end of a dialogue in two ways is known of it. -/
theorem Dialogue.Meets.and {α : Type} {d : Dialogue α}
    {answers : (q : Query) → Memory → q.Answer → Memory → Prop} {post post' : α → Prop}
    (h : d.Meets (fun _ _ => True) answers post) (h' : d.Meets (fun _ _ => True) answers post') :
    d.Meets (fun _ _ => True) answers fun r => post r ∧ post' r := by
  induction d with
  | done r => exact ⟨h, h'⟩
  | ask q m next ih => exact ⟨.intro, fun a m' ha => ih a m' (h.2 a m' ha) (h'.2 a m' ha)⟩

namespace Evaluation.Ensures

variable {p : Program} {answers : (q : Query) → Memory → q.Answer → Memory → Prop} {m : Memory}
  {α : Type} {e : Evaluation α}

/-- An evaluation that works, so that its questions may be asked and are asked of sound memories,
needs answers to no other ones. -/
theorem safely_within {may : Query → Memory → Prop} {post : α → TypeStore → Prop}
    {post' : α → Memory → Prop} (hm : m.Sound p.builtins) (hworks : Works p may m e post)
    (h : Ensures answers m e post') :
    Ensures (Query.SafelyWithin p may answers) m e fun a m' =>
      m'.Sound p.builtins ∧ m.Grows m' ∧ post a m'.store ∧ post' a m' := by
  have key : ∀ {d : Dialogue (α × Memory)}, d.Meets (Fit p may) (Fits p) (fun r =>
      r.2.Sound p.builtins ∧ m.Grows r.2 ∧ post r.1 r.2.store) →
      d.Meets (fun _ _ => True) answers (fun r => post' r.1 r.2) →
      d.Meets (fun _ _ => True) (Query.SafelyWithin p may answers) fun r =>
        r.2.Sound p.builtins ∧ m.Grows r.2 ∧ post r.1 r.2.store ∧ post' r.1 r.2 := by
    intro d
    induction d with
    | done r => exact fun hw h => ⟨hw.1, hw.2.1, hw.2.2, h⟩
    | ask q m' next ih =>
      rintro ⟨hfit, hw⟩ ⟨-, h⟩
      refine ⟨.intro, fun a m'' ha => ?_⟩
      obtain ⟨hfits, hanswer⟩ := ha hfit
      exact ih a m'' (hw a m'' hfits) (h a m'' hanswer)
  exact key (hworks hm) h

/-- An evaluation that works needs answers only to questions that are asked of sound memories. -/
theorem safely (may : Query → Memory → Prop) {post : α → TypeStore → Prop}
    {post' : α → Memory → Prop} (hm : m.Sound p.builtins) (hworks : Works p may m e post)
    (h : Ensures answers m e post') :
    Ensures (Query.Safely p answers) m e fun a m' =>
      m'.Sound p.builtins ∧ m.Grows m' ∧ post a m'.store ∧ post' a m' :=
  Dialogue.Meets.of_answers (safely_within hm hworks h) fun h hfit => h hfit.1 hfit.2.1

end Evaluation.Ensures

end TypeProbe
