import TypeProbe.Proofs.Inference.Checker
import TypeProbe.Proofs.Inference.Rules
import TypeProbe.Proofs.Types.Linearization

/-!
# Classes are completed

A class is kept before its bases and members are known, and its evaluation may lead back to it. When
the question that has begun it is answered it is complete nevertheless: it is no longer marked as
one whose evaluation is going on, and it has its order of ancestors, itself first, and a class of
its own (`Memory.Completes`). For this, `Memory.Begins` tells what has become of a memory while one
class is still being evaluated. Between questions, all classes that are kept are complete
(`Checker.quiescent`).
-/

namespace TypeProbe

/-- A handle is known by its place. -/
theorem ClassId.eq_of_index {d d' : ClassId} (h : d.index = d'.index) : d = d' := by
  cases d
  cases d'
  exact congrArg ClassId.mk h

namespace TypeStore

/-- The classes when one has been added and its plain type has been asked for. -/
theorem core_class?_classType (s : TypeStore) (c : ClassDetail) (d : ClassId) :
    (((s.addClass c).2.classType (s.addClass c).1).2.class? d).map ClassDetail.core =
      if d.index = s.classes.size then some c.core else (s.class? d).map ClassDetail.core := by
  rw [(keeping_classType (s.addClass c).1 (s.addClass c).2).core_class?, class?_addClass]
  split
  · rfl
  · rfl

/-- A class stays when another one is changed. -/
theorem class?_modifyClass_of_ne (s : TypeStore) {d d' : ClassId}
    {change : ClassDetail → ClassDetail} (h : d' ≠ d) :
    (s.modifyClass d change).class? d' = s.class? d' := by
  exact (class?_modifyClass d d' change).trans (if_neg fun heq => h (ClassId.eq_of_index heq.symm))

/-- The plain types of classes that are known are that. -/
def PlainClassTypes (s : TypeStore) : Prop :=
  ∀ e ∈ s.classTypes, s.get? e.2 = some ⟨classFlags, .nominal e.1 none none⟩

/-- The plain type of a class is found or made. -/
theorem PlainClassTypes.get?_classType {s : TypeStore} (h : s.PlainClassTypes) (d : ClassId) :
    (s.classType d).2.get? (s.classType d).1 = some ⟨classFlags, .nominal d none none⟩ := by
  unfold classType
  split
  · rename_i id hid
    exact h (d, id) (mem_of_lookup hid)
  · exact Array.getElem?_push_size

/-- A type is the plain type of a class whose order of ancestors begins with it and that has a class
of its own. -/
def Complete (s : TypeStore) (id : TypeId) : Prop :=
  ∃ d c, s.get? id = some ⟨classFlags, .nominal d none none⟩ ∧ s.class? d = some c ∧
    c.mro.head? = some id ∧ c.effectiveMetaclass.isSome

end TypeStore

namespace ClassCore

/-- What has been set of a class is enough for it to be complete with the given type. -/
def Has (k : ClassCore) (id : TypeId) : Prop :=
  k.mro.head? = some id ∧ k.effectiveMetaclass.isSome

/-- Sets what the arguments of its definition say of a class. -/
def withHeritage (bases mro : List TypeId) (metaclass : TypeId) (k : ClassCore) : ClassCore :=
  { k with bases, mro, effectiveMetaclass := some metaclass }

/-- Ends the evaluation of a class. -/
def ended (k : ClassCore) : ClassCore := { k with isPartial := false }

end ClassCore

open TypeStore

/-- A memory in which everything of another one has stayed, and new classes are complete. -/
structure Memory.Completes (m m' : Memory) : Prop where
  /-- Types stay. -/
  get? : ∀ id t, m.store.get? id = some t → m'.store.get? id = some t
  /-- The plain types of classes are that if they were before. -/
  plain : m.store.PlainClassTypes → m'.store.PlainClassTypes
  /-- Classes stay. -/
  core : ∀ d c, m.store.class? d = some c →
    (m'.store.class? d).map ClassDetail.core = some c.core
  /-- The evaluation of classes that are new has ended. -/
  ended : ∀ d c, m'.store.class? d = some c → m.store.class? d = none → c.core.isPartial = false
  /-- Definitions that are new are of complete classes. -/
  complete : m.store.PlainClassTypes →
    ∀ e ∈ m'.classes, e ∈ m.classes ∨ m'.store.Complete e.2.defined

/-- A complete type stays complete where types and classes stay. -/
theorem TypeStore.Complete.mono {s s' : TypeStore} {id : TypeId} (h : s.Complete id)
    (hget : ∀ id t, s.get? id = some t → s'.get? id = some t)
    (hcore : ∀ d c, s.class? d = some c → (c.core.Has id) →
      ∃ c', s'.class? d = some c' ∧ c'.core.Has id) : s'.Complete id := by
  obtain ⟨d, c, ht, hc, hhas⟩ := h
  obtain ⟨c', hc', hhas'⟩ := hcore d c hc hhas
  exact ⟨d, c', hget _ _ ht, hc', hhas'⟩

namespace Memory.Completes

variable {m m' m'' : Memory}

/-- Complete types stay complete. -/
theorem complete_mono (h : m.Completes m') {id : TypeId} (hid : m.store.Complete id) :
    m'.store.Complete id := by
  refine hid.mono h.get? fun d c hc hhas => ?_
  obtain ⟨c', hc', hcore⟩ := Option.map_eq_some_iff.1 (h.core d c hc)
  exact ⟨c', hc', hcore ▸ hhas⟩

/-- The evaluation of a class has ended, or the class was there before. -/
theorem ended_or_old (h : m.Completes m') {d : ClassId} {c : ClassDetail}
    (hc : m'.store.class? d = some c) :
    c.core.isPartial = false ∨ ∃ c', m.store.class? d = some c' ∧ c'.core = c.core := by
  cases hold : m.store.class? d with
  | none => exact .inl (h.ended d c hc hold)
  | some c' =>
    have hcore := h.core d c' hold
    rw [hc, Option.map_some, Option.some_inj] at hcore
    exact .inr ⟨c', rfl, hcore.symm⟩

/-- What is kept, with no new classes, is complete. -/
theorem of_keeps (h : m.Keeps m') : m.Completes m' where
  get? := h.store.get?
  plain hplain e he := by
    rcases h.store.classTypes e he with hold | hnew
    · exact h.store.get? _ _ (hplain e hold)
    · exact hnew
  core d c hc := by rw [h.store.core_class?, hc]; rfl
  ended d c hc hnone := by
    have hcore := h.store.core_class? d
    rw [hc, hnone] at hcore
    cases hcore
  complete _ e he := .inl (h.classes ▸ he)

/-- Changes elsewhere leave the classes. -/
theorem of_eq (htypes : m'.store.types = m.store.types)
    (hclasses : m'.store.classes = m.store.classes)
    (hplain : m'.store.classTypes = m.store.classTypes) (hkept : m'.classes = m.classes) :
    m.Completes m' := by
  have hget : ∀ id, m'.store.get? id = m.store.get? id := fun id => by
    rw [TypeStore.get?, TypeStore.get?, htypes]
  have hclass : ∀ d, m'.store.class? d = m.store.class? d := fun d => by
    rw [TypeStore.class?, TypeStore.class?, hclasses]
  exact {
    get? := fun id t ht => (hget id).trans ht
    plain := fun h e he => (hget _).trans (h e (hplain ▸ he))
    core := fun d c hc => by rw [hclass, hc]; rfl
    ended := fun d c hc hnone => by rw [hclass, hnone] at hc; cases hc
    complete := fun _ e he => .inl (hkept ▸ he) }

/-- What is completed twice is complete. -/
theorem trans (h : m.Completes m') (h' : m'.Completes m'') : m.Completes m'' where
  get? id t ht := h'.get? id t (h.get? id t ht)
  plain hplain := h'.plain (h.plain hplain)
  core d c hc := by
    obtain ⟨c', hc', hcore⟩ := Option.map_eq_some_iff.1 (h.core d c hc)
    rw [h'.core d c' hc', hcore]
  ended d c hc hnone := by
    rcases h'.ended_or_old hc with hended | ⟨c', hmiddle, hcore⟩
    · exact hended
    · exact hcore ▸ h.ended d c' hmiddle hnone
  complete hplain e he := by
    rcases h'.complete (h.plain hplain) e he with hold | hnew
    · exact (h.complete hplain e hold).imp_right h'.complete_mono
    · exact .inr hnew

end Memory.Completes

instance : Lenient Memory.Completes where
  keeps := .of_keeps
  trans := .trans

/-- A memory that completes another one but for one new class, of which something is set already,
and which may be kept with its type. -/
structure Memory.Begins (detail : ClassId) (k : ClassCore) (id : TypeId) (m m' : Memory) :
    Prop where
  /-- Types stay. -/
  get? : ∀ id t, m.store.get? id = some t → m'.store.get? id = some t
  /-- The plain types of classes are that if they were before. -/
  plain : m.store.PlainClassTypes → m'.store.PlainClassTypes
  /-- Classes stay. -/
  core : ∀ d c, m.store.class? d = some c →
    (m'.store.class? d).map ClassDetail.core = some c.core
  /-- The evaluation of the other classes that are new has ended. -/
  ended : ∀ d c, m'.store.class? d = some c → m.store.class? d = none →
    d = detail ∨ c.core.isPartial = false
  /-- Definitions that are new are of complete classes or of the one class. -/
  complete : m.store.PlainClassTypes →
    ∀ e ∈ m'.classes, e ∈ m.classes ∨ m'.store.Complete e.2.defined ∨ e.2.defined = id
  /-- The one class is new. -/
  isNew : m.store.class? detail = none
  /-- What is set of the one class. -/
  own : (m'.store.class? detail).map ClassDetail.core = some k
  /-- The type is the plain type of the one class. -/
  type : m.store.PlainClassTypes → m'.store.get? id = some ⟨classFlags, .nominal detail none none⟩

namespace Memory.Begins

variable {detail : ClassId} {k k' : ClassCore} {id : TypeId} {m m' m'' : Memory}

/-- What is completed while a class is being evaluated leaves that class. -/
theorem completes (h : Begins detail k id m m') (h' : m'.Completes m'') :
    Begins detail k id m m'' where
  get? id t ht := h'.get? id t (h.get? id t ht)
  plain hplain := h'.plain (h.plain hplain)
  core d c hc := by
    obtain ⟨c', hc', hcore⟩ := Option.map_eq_some_iff.1 (h.core d c hc)
    rw [h'.core d c' hc', hcore]
  ended d c hc hnone := by
    rcases h'.ended_or_old hc with hended | ⟨c', hmiddle, hcore⟩
    · exact .inr hended
    · exact hcore ▸ h.ended d c' hmiddle hnone
  complete hplain e he := by
    rcases h'.complete (h.plain hplain) e he with hold | hnew
    · exact (h.complete hplain e hold).imp_right (·.imp_left h'.complete_mono)
    · exact .inr (.inl hnew)
  isNew := h.isNew
  own := by
    obtain ⟨c, hc, hcore⟩ := Option.map_eq_some_iff.1 h.own
    rw [h'.core _ c hc, hcore]
  type hplain := h'.get? _ _ (h.type hplain)

/-- Something more is set of the class that is being evaluated. -/
theorem modifyClass (h : Begins detail k id m m') {change : ClassDetail → ClassDetail}
    (hchange : ∀ c, c.core = k → (change c).core = k') (hhas : ∀ id, k.Has id → k'.Has id) :
    Begins detail k' id m { m' with store := m'.store.modifyClass detail change } where
  get? := h.get?
  plain := h.plain
  core d c hc := by
    have hne : d ≠ detail := fun heq => by rw [heq, h.isNew] at hc; cases hc
    rw [class?_modifyClass_of_ne _ hne]
    exact h.core d c hc
  ended d c hc hnone := by
    by_cases hd : d = detail
    · exact .inl hd
    · rw [class?_modifyClass_of_ne _ hd] at hc
      exact h.ended d c hc hnone
  complete hplain e he := by
    refine (h.complete hplain e he).imp_right (·.imp_left fun hcomplete => ?_)
    -- A complete class may be the changed one, but what it has is not taken from it.
    refine hcomplete.mono (fun _ _ h => h) fun d c hc hc' => ?_
    by_cases hd : d = detail
    · subst hd
      obtain ⟨c', hown, hk⟩ := Option.map_eq_some_iff.1 h.own
      rw [hc] at hown
      cases hown
      refine ⟨change c, by rw [class?_modifyClass, if_pos rfl, hc]; rfl, ?_⟩
      rw [hchange c hk]
      exact hhas _ (hk ▸ hc')
    · exact ⟨c, by rw [class?_modifyClass_of_ne _ hd]; exact hc, hc'⟩
  isNew := h.isNew
  own := by
    obtain ⟨c, hc, hcore⟩ := Option.map_eq_some_iff.1 h.own
    rw [class?_modifyClass, if_pos rfl, hc]
    exact congrArg some (hchange c hcore)
  type := h.type

/-- The class that is being evaluated may be kept with its type. -/
theorem keepClass (h : Begins detail k id m m') (n : NodeId) (decorated : TypeId) :
    Begins detail k id m { m' with classes := (n, ⟨id, decorated⟩) :: m'.classes } :=
  { h with
    complete := fun hplain e he => by
      rcases List.mem_cons.1 he with rfl | hold
      · exact .inr (.inr rfl)
      · exact h.complete hplain e hold }

/-- When the evaluation of a class has ended and enough is set, the class is complete as well. -/
theorem finish (h : Begins detail k id m m') (hended : k.isPartial = false) (hhas : k.Has id) :
    m.Completes m' where
  get? := h.get?
  plain := h.plain
  core := h.core
  ended d c hc hnone := by
    obtain ⟨c', hc', hcore⟩ := Option.map_eq_some_iff.1 h.own
    rcases h.ended d c hc hnone with rfl | hother
    · rw [hc] at hc'
      cases hc'
      rw [hcore]
      exact hended
    · exact hother
  complete hplain e he := by
    refine (h.complete hplain e he).imp_right fun hcomplete => hcomplete.elim (fun h => h) ?_
    intro heq
    obtain ⟨c, hc, hcore⟩ := Option.map_eq_some_iff.1 h.own
    rw [← hcore] at hhas
    rw [heq]
    exact ⟨detail, c, h.type hplain, hc, hhas⟩

/-- A class that has been added, and that is kept with its plain type, has begun. -/
theorem start (m : Memory) (c : ClassDetail) (n : NodeId) :
    let s := (m.store.addClass c).2
    let detail := (m.store.addClass c).1
    let id := (s.classType detail).1
    Begins detail c.core id m { m with
      store := (s.classType detail).2, classes := (n, ⟨id, id⟩) :: m.classes } := by
  intro s detail id
  have hkeeps := keeping_classType detail s
  have hclass := core_class?_classType m.store c
  have hfresh : ∀ {d : ClassId} {c : ClassDetail}, m.store.class? d = some c →
      d.index ≠ m.store.classes.size := fun hc =>
    Nat.ne_of_lt (Array.getElem?_eq_some_iff.1 hc).1
  exact {
    get? := fun id t ht => hkeeps.get? id t ht
    plain := fun hplain e he => by
      rcases hkeeps.classTypes e he with hold | hnew
      · exact hkeeps.get? _ _ (hplain e hold)
      · exact hnew
    core := fun d c hc => by rw [hclass, if_neg (hfresh hc), hc]; rfl
    ended := fun d c' hc hnone => by
      by_cases hd : d = detail
      · exact .inl hd
      · have hother := (hclass d).trans (if_neg fun heq => hd (ClassId.eq_of_index heq))
        rw [hnone, show (s.classType detail).2.class? d = some c' from hc] at hother
        cases hother
    complete := fun _ e he => by
      rcases List.mem_cons.1 he with rfl | hold
      · exact .inr (.inr rfl)
      · exact .inl hold
    isNew := Array.getElem?_eq_none (Nat.le_refl _)
    own := (hclass detail).trans (if_pos rfl)
    type := fun hplain => PlainClassTypes.get?_classType (s := s) hplain detail }

end Memory.Begins

namespace Evaluation

open Definitions

variable {p : Program} {m : Memory} {n : NodeId}

/-- Completing a class with what its arguments say sets its bases, the order of its ancestors as it
is merged at the beginning, and its class. -/
theorem ensures_completeHeritage {R : Memory → Memory → Prop} [Tolerant R] (detail : ClassId)
    (id : TypeId) (h : Heritage) (body : NodeId) :
    Ensures (Query.AnswersBy R) m (completeHeritage p detail id h body) fun _ m'' =>
      ∃ m' metaclass change, R m m' ∧
        (∀ c : ClassDetail, (change c).core =
          c.core.withHeritage h.bases (m.store.linearize id h.bases) metaclass) ∧
        m'' = { m' with store := m'.store.modifyClass detail change } := by
  refine .store ?_
  extract_lets mro
  refine (Ensures.of_changes (changes_metaclassOf p h)).bind fun metaclass m1 h1 => .store ?_
  extract_lets isAbstract
  refine Ensures.edit.weaken fun _ m2 h2 => ⟨m1, metaclass, _, h1, fun c => ?_, h2⟩
  refine congrArg (ClassCore.mk c.declaration · h.bases mro (some metaclass)) ?_
  dsimp only
  split
  · exact (Flags.has_insert _ _ _).trans (Bool.or_false _)
  · rfl

/-- When a class is completed with its members its evaluation ends. -/
theorem ensures_completeFields {R : Memory → Memory → Prop} [Lenient R] (detail : ClassId)
    (n : NodeId) :
    Ensures (Query.AnswersBy R) m (completeFields p n detail) fun _ m'' =>
      ∃ m' change, R m m' ∧
        (∀ c : ClassDetail, (change c).core = c.core.ended) ∧
        m'' = { m' with store := m'.store.modifyClass detail change } := by
  unfold completeFields
  extract_lets symbols
  refine (Ensures.of_changes (.forM (changes_completeField p (Lenient.mayChange detail) n) _)).bind
    fun _ m1 h1 => ?_
  refine (Ensures.of_changes_after h1
    (.forM (changes_completeMember p (Lenient.mayChange detail) n) _)).bind
    fun _ m2 h2 => ?_
  refine Ensures.edit.weaken fun _ m3 h3 => ⟨m2, _, h2, fun c => ?_, h3⟩
  exact congrArg (ClassCore.mk c.declaration · c.bases c.mro c.effectiveMetaclass)
    (Flags.has_erase_self c.flags .partiallyEvaluated)

/-- Working out a class definition completes it. -/
theorem completes_newClass (decorators arguments : List NodeId) (body : NodeId) :
    Ensures (Query.AnswersBy Memory.Completes) m (newClass p n decorators arguments body)
      fun _ m' => m.Completes m' := by
  unfold newClass
  extract_lets name
  refine Ensures.onStore.bind fun detail m1 h1 => ?_
  refine Ensures.onStore.bind fun id m2 h2 => ?_
  refine Ensures.modify.bind fun _ m3 h3 => ?_
  have hstart : ∃ k, k.mro = [] ∧ Memory.Begins detail k id m m3 := by
    obtain ⟨rfl, rfl⟩ := h1
    obtain ⟨rfl, rfl⟩ := h2
    subst h3
    exact ⟨_, rfl, Memory.Begins.start m _ n⟩
  obtain ⟨k, hmro, hstart⟩ := hstart
  -- The bases, members and decorators may lead back to the class; it is the one that has begun.
  refine (Ensures.of_changes (changes_heritage p arguments)).bind fun h m4 h4 => ?_
  refine (ensures_completeHeritage detail id h body).bind fun _ m5 h5 => ?_
  refine (ensures_completeFields detail n).bind fun _ m6 h6 => ?_
  refine (Ensures.of_changes
    (.foldlM (changes_decorateClass p (Lenient.mayChange detail)) _ _)).bind
    fun decorated m7 h7 => ?_
  refine Ensures.modify.bind fun _ m8 h8 => .ret ?_
  obtain ⟨m5', metaclass, change, h5', hheritage, rfl⟩ := h5
  obtain ⟨m6', change', h6', hfields, rfl⟩ := h6
  subst h8
  have hset := ((hstart.completes h4).completes h5').modifyClass
    (fun c hc => (hheritage c).trans (congrArg (ClassCore.withHeritage _ _ _) hc)) fun _ hhas => by
      rw [ClassCore.Has, hmro] at hhas
      cases hhas.1
  have hended := (hset.completes h6').modifyClass
    (fun c hc => (hfields c).trans (congrArg ClassCore.ended hc)) fun _ hhas => hhas
  exact ((hended.completes h7).keepClass n decorated).finish rfl ⟨head?_linearize _ _ _, rfl⟩

/-- The rules complete. -/
theorem completes_rule (q : Query) (m : Memory) :
    Ensures (Query.AnswersBy Memory.Completes) m (q.rule p) fun _ m' => m.Completes m' := by
  have hadd : ∀ (m : Memory) f, m.Completes { m with store := (m.store.addFunction f).2 } :=
    fun m f => .of_eq rfl rfl rfl rfl
  cases q with
  | node n =>
    refine .of_changes (changes_node p (fun m type => ?_) fun _ m f _ => hadd m f)
    exact .of_eq rfl rfl rfl rfl
  | classDef n =>
    refine .get ?_
    split
    · exact .ret (Tolerant.refl m)
    · split
      · exact (completes_newClass _ _ _).bind fun _ _ h => .ret h
      · exact .ret (Tolerant.refl m)
  | function n =>
    exact .of_changes
      (changes_function p (fun m types => .of_eq rfl rfl rfl rfl) fun _ m f _ => hadd m f)
  | _ => exact .of_changes (changes_plain p (fun d _ m => Lenient.keepsDeclaration m d.node) rfl)

end Evaluation

namespace Checker

/-- The evaluation of no class that is known beforehand is going on. -/
theorem ended_create : ((Builtins.create.run TypeStore.initial).2.classes.all fun c =>
    !c.flags.has .partiallyEvaluated) = true := by decide +kernel

/-- No class of the store is being evaluated, and the memory keeps only complete ones. -/
structure Settled (m : Memory) : Prop where
  /-- The evaluation of every class has ended. -/
  ended : ∀ d c, m.store.class? d = some c → c.flags.has .partiallyEvaluated = false
  /-- The plain types of classes are that. -/
  plain : m.store.PlainClassTypes
  /-- The classes that are kept are complete. -/
  complete : ∀ e ∈ m.classes, m.store.Complete e.2.defined

/-- A memory stays settled when everything new is completed. -/
theorem Settled.completes {m m' : Memory} (h : Settled m) (h' : m.Completes m') : Settled m' where
  ended d c hc := by
    rcases h'.ended_or_old hc with hended | ⟨c', hold, hcore⟩
    · exact hended
    · exact (congrArg ClassCore.isPartial hcore).symm.trans (h.ended d c' hold)
  plain := h'.plain h.plain
  complete e he := (h'.complete h.plain e he).elim
    (fun hold => h'.complete_mono (h.complete e hold)) fun hnew => hnew

/-- The memory of a checker for a file is settled. -/
theorem Reached.settled {name text : String} {c : Checker}
    (h : Reached (SourceFile.ofText name text) c) : Settled c.memory := by
  -- Over the answered questions; before them there are the classes that are known beforehand.
  induction h with
  | start =>
    have hsound := (sound_checker name text).memory.store
    obtain ⟨b, s, hcreate, hstart⟩ := checker_eq (SourceFile.ofText name text)
    rw [hstart] at hsound ⊢
    refine ⟨fun d c hc => ?_, fun e he => hsound.classTypes e.1 e.2 he, nofun⟩
    have hall := ended_create
    rw [hcreate, Array.all_eq_true] at hall
    obtain ⟨hd, hget⟩ := Array.getElem?_eq_some_iff.1 hc
    have hended := hall d.index hd
    rw [Bool.not_eq_true'] at hended
    exact (congrArg (·.flags.has .partiallyEvaluated) hget.symm).trans hended
  | answered hc hq ha ih =>
    obtain ⟨⟨a', m'⟩, hanswer, heq⟩ := Option.map_eq_some_iff.1 ha
    cases heq
    exact ih.completes ((Evaluation.completes_rule _ _).of_run Evaluation.completes_rule hanswer)

/-- Between questions nothing is being worked out, the evaluation of all classes has ended, and all
classes that are kept are complete: their type is the plain type of a class whose order of ancestors
begins with it and that has a class of its own. -/
theorem quiescent {name text : String} {c : Checker}
    (h : Reached (SourceFile.ofText name text) c) :
    c.memory.Idle ∧
    (∀ d detail, c.store.class? d = some detail →
      detail.flags.has .partiallyEvaluated = false) ∧
    ∀ e ∈ c.memory.classes, c.store.Complete e.2.defined :=
  ⟨h.idle, h.settled.ended, h.settled.complete⟩

/-- A checker that has been asked for a class definition. -/
theorem quiescent_classDef :
    ∃ t c, (SourceFile.ofText "a.py" "class A: x = 1\n").checker.classOf? 6 = some (t, c) ∧
      c.memory.Idle ∧
      (∀ d detail, c.store.class? d = some detail →
        detail.flags.has .partiallyEvaluated = false) ∧
      ∀ e ∈ c.memory.classes, c.store.Complete e.2.defined := by
  obtain ⟨t, c, ht⟩ := exists_answer (c := (SourceFile.ofText "a.py" "class A: x = 1\n").checker)
    (q := .classDef 6) 9 (by decide +kernel)
  exact ⟨t, c, ht, quiescent (.answered (q := .classDef 6) .start trivial ht)⟩

end Checker

end TypeProbe
