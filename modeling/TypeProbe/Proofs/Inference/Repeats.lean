import TypeProbe.Proofs.Inference.Checker
import TypeProbe.Proofs.Inference.Rules

/-!
# Asking again

What is kept of a node or a definition when a question has been answered is never changed by later
answers (`Memory.Remembers`), though the types of a definition are replaced while it is being
evaluated. A question for a node or a definition is answered with what is kept of it then, and one
about what has no value or is no definition has no value to give, whenever it is asked
(`Program.hasValue`). So a checker that is asked again gives the same answer.
-/

namespace TypeProbe

/-- Whether a name only labels the construct around it: the keyword of an argument, or a part of
what is imported that declares nothing by it. -/
def Program.isLabel (p : Program) (n : NodeId) : Bool :=
  match p.arena.parent? n with
  | none => false
  | some parent =>
    match p.arena.form? parent with
    | some (.argument _ keyword _) => keyword == some n
    | some (.moduleName ..) =>
      match p.arena.parent? parent with
      | some around =>
        p.arena.kind? around != some .importAs || (p.bindings.declaration? around).isNone
      | none => true
    | some (.importAs ..) | some (.importFromAs ..) => (p.bindings.declaration? parent).isNone
    | _ => false

/-- Whether a node has a value: expressions have one, unless they are names that only label the
construct around them. -/
def Program.hasValue (p : Program) (n : NodeId) : Bool :=
  match p.arena.form? n with
  | some (.name ..) => !p.isLabel n
  | some form => form.kind.isExpression
  | none => false

/-- Nodes that have a value, and definitions, have types. -/
def Query.Given (p : Program) : (q : Query) → Memory → q.Answer → Memory → Prop
  | .node n, _, answer, _ => p.hasValue n = true → answer.isSome
  | .classDef n, _, answer, _ => p.isClass n = true → answer.isSome
  | .function n, _, answer, _ => p.isFunction n = true → answer.isSome
  | .declaration _, _, _, _ | .hint _, _, _, _ | .call _ _, _, _, _ | .member _ _, _, _, _
  | .returned _, _, _, _ => True

namespace Evaluation

variable {p : Program} {n : NodeId}

/-! ## Nodes without a value -/

/-- Where nothing is declared there is no type. -/
theorem declared_of_isNone (h : (p.bindings.declaration? n).isNone) (m : Memory) :
    Expressions.declared p n m = .done (none, m) := by
  unfold Expressions.declared
  rw [Option.isNone_iff_eq_none.1 h]
  rfl

/-- A name that only labels the construct around it has no type. -/
theorem name_of_isLabel (h : p.isLabel n = true) (value : String) (m : Memory) :
    Expressions.name p n value m = .done (none, m) := by
  unfold Program.isLabel at h
  unfold Expressions.name
  cases hparent : p.arena.parent? n with
  | none =>
    rw [hparent] at h
    cases h
  | some parent =>
    rw [hparent] at h
    dsimp only at h ⊢
    cases hform : p.arena.form? parent with
    | none =>
      rw [hform] at h
      cases h
    | some form =>
      rw [hform] at h
      cases form with
      | argument category keyword value =>
        dsimp only at h ⊢
        rw [if_pos (eq_of_beq h)]
        rfl
      | moduleName dots parts missing =>
        dsimp only at h ⊢
        cases haround : p.arena.parent? parent with
        | none => rfl
        | some around =>
          rw [haround] at h
          dsimp only at h ⊢
          split
          · rename_i hkind
            rw [hkind] at h
            exact declared_of_isNone h m
          · rfl
      | importAs module newName => exact declared_of_isNone h m
      | importFromAs name newName => exact declared_of_isNone h m
      | _ => cases h

/-- A node without a value has no type, and no question is asked for that. -/
theorem compute_of_not_hasValue (h : p.hasValue n = false) (m : Memory) :
    Expressions.compute p n m = .done (none, m) := by
  unfold Program.hasValue at h
  unfold Expressions.compute
  cases hform : p.arena.form? n with
  | none => rfl
  | some form =>
    rw [hform] at h
    cases form with
    | name token value => exact name_of_isLabel (by simpa using h) value m
    | _ => first | rfl | cases h

/-! ## Nodes with a value -/

section Given

variable {m : Memory}

/-- Only a definition of a class is one. -/
theorem form?_of_isClass (h : p.isClass n = true) : ∃ decorators name arguments suite,
    p.arena.form? n = some (.classDef decorators name arguments suite) := by
  obtain ⟨form, hform, hkind⟩ := Arena.form?_of_kind? (eq_of_beq h)
  cases form with
  | classDef decorators name arguments suite => exact ⟨_, _, _, _, hform⟩
  | _ => cases hkind

/-- Only a definition of a function is one. -/
theorem form?_of_isFunction (h : p.isFunction n = true) :
    ∃ decorators isAsync name parameters returnHint suite,
      p.arena.form? n = some (.function decorators isAsync name parameters returnHint suite) := by
  obtain ⟨form, hform, hkind⟩ := Arena.form?_of_kind? (eq_of_beq h)
  cases form with
  | function decorators isAsync name parameters returnHint suite =>
    exact ⟨_, _, _, _, _, _, hform⟩
  | _ => cases hkind

/-- What surely has a type has one. -/
theorem isSome_whole (e : Evaluation TypeId) :
    Ensures (Query.Given p) m (some <$> e) fun a _ => a.isSome :=
  Ensures.trivial.map fun _ _ _ => rfl

/-- What is declared has a type. -/
theorem isSome_declared (h : (p.bindings.declaration? n).isNone = false) :
    Ensures (Query.Given p) m (Expressions.declared p n) fun a _ => a.isSome := by
  unfold Expressions.declared
  split
  · exact Ensures.trivial.bind fun type m' _ => .ret rfl
  · rename_i hnone
    rw [hnone] at h
    cases h

/-- A name has a type where it is declared or used. -/
theorem isSome_plainName (n : NodeId) (value : String) :
    Ensures (Query.Given p) m (Expressions.plainName p n value) fun a _ => a.isSome := by
  refine Ensures.trivial.bind fun found m' _ => ?_
  split
  · exact .ret rfl
  · exact Ensures.trivial.bind fun type m'' _ => .ret rfl

/-- A name that does not only label the construct around it has a type. -/
theorem isSome_name (h : p.isLabel n = false) (value : String) :
    Ensures (Query.Given p) m (Expressions.name p n value) fun a _ => a.isSome := by
  have hplain := isSome_plainName (p := p) (m := m) n value
  unfold Program.isLabel at h
  unfold Expressions.name
  cases hparent : p.arena.parent? n with
  | none => exact hplain
  | some parent =>
    rw [hparent] at h
    dsimp only at h ⊢
    cases hform : p.arena.form? parent with
    | none => exact hplain
    | some form =>
      rw [hform] at h
      cases form with
      | function decorators isAsync name parameters returnHint suite =>
        dsimp only
        split
        · refine Ensures.ask.bind fun types m' htypes => .ret ?_
          rw [Option.isSome_map]
          exact htypes (isFunction_of_form? p hform)
        · exact hplain
      | classDef decorators name arguments suite =>
        dsimp only
        split
        · refine Ensures.ask.bind fun types m' htypes => .ret ?_
          rw [Option.isSome_map]
          exact htypes (isClass_of_form? p hform)
        · exact hplain
      | parameter category name hint defaultValue =>
        dsimp only
        split
        · exact Ensures.trivial.bind fun type m' _ => .ret rfl
        · exact hplain
      | memberAccess left member =>
        dsimp only
        split
        · refine Ensures.ask.weaken fun type m' htype => htype ?_
          rw [Program.hasValue, hform]
          rfl
        · exact hplain
      | argument category keyword value =>
        dsimp only at h ⊢
        rw [if_neg (by simpa using h)]
        exact hplain
      | moduleName dots parts missing =>
        dsimp only at h ⊢
        cases haround : p.arena.parent? parent with
        | none =>
          rw [haround] at h
          cases h
        | some around =>
          rw [haround] at h
          obtain ⟨hkind, hdeclared⟩ := Bool.or_eq_false_iff.1 h
          dsimp only
          rw [if_pos (by simpa using hkind)]
          exact isSome_declared hdeclared
      | importAs module newName => exact isSome_declared h
      | importFromAs name newName => exact isSome_declared h
      | _ => exact hplain

/-- A node with a value has a type. -/
theorem isSome_compute (h : p.hasValue n = true) :
    Ensures (Query.Given p) m (Expressions.compute p n) fun a _ => a.isSome := by
  unfold Program.hasValue at h
  unfold Expressions.compute
  extract_lets b whole
  have hwhole : ∀ e : Evaluation TypeId, Ensures (Query.Given p) m (whole e) fun a _ => a.isSome :=
    isSome_whole
  cases hform : p.arena.form? n with
  | none =>
    rw [hform] at h
    cases h
  | some form =>
    rw [hform] at h
    cases form with
    | name token value => exact isSome_name (by simpa using h) value
    | yield value => exact .ret rfl
    | yieldFrom value => exact .ret rfl
    | _ => first | exact hwhole _ | cases h

/-- Questions about what has a value, and about definitions, are given answers. -/
theorem ensures_given (q : Query) : Ensures (Query.Given p) m (q.rule p) (q.Given p m) := by
  cases q with
  | node n =>
    refine .get ?_
    split
    · exact .ret fun _ => rfl
    · refine ensures_guarded (fun _ _ => rfl) fun _ => ?_
      cases h : p.hasValue n with
      | false => exact Ensures.trivial.weaken fun _ _ _ hvalue => by rw [h] at hvalue; cases hvalue
      | true => exact (isSome_compute h).weaken fun a m' ha _ => ha
  | classDef n =>
    refine .get ?_
    split
    · exact .ret fun _ => rfl
    · split
      · exact Ensures.trivial.bind fun types m' _ => .ret fun _ => rfl
      · rename_i hform
        refine .ret fun h => ?_
        obtain ⟨decorators, name, arguments, suite, hclass⟩ := form?_of_isClass h
        exact absurd hclass (hform _ _ _ _)
  | function n =>
    refine .get ?_
    split
    · exact .ret fun _ => rfl
    · split
      · refine Ensures.trivial.bind fun owner m' _ => .get ?_
        split
        · exact .ret fun _ => rfl
        · exact Ensures.trivial.bind fun types m'' _ => .ret fun _ => rfl
      · rename_i hform
        refine .ret fun h => ?_
        obtain ⟨decorators, isAsync, name, parameters, returnHint, suite, hfunction⟩ :=
          form?_of_isFunction h
        exact absurd hfunction (hform _ _ _ _ _ _)
  | _ => exact Ensures.trivial

end Given

end Evaluation

/-! ## What is kept -/

/-- What is kept under the same keys as before, and under further ones that may be added. -/
def Settles {β : Type} (may : NodeId → Bool) (kept kept' : List (NodeId × β)) : Prop :=
  ∀ n, kept'.lookup n = kept.lookup n ∨ (kept.lookup n = none ∧ may n = true)

namespace Settles

variable {β : Type} {may : NodeId → Bool} {kept kept' kept'' : List (NodeId × β)} {n : NodeId}

/-- What is not changed is as before. -/
theorem refl (kept : List (NodeId × β)) : Settles may kept kept := fun _ => .inl rfl

/-- What is added twice is added. -/
theorem trans (h : Settles may kept kept') (h' : Settles may kept' kept'') :
    Settles may kept kept'' := by
  intro n
  rcases h n with heq | hnew
  · rcases h' n with heq' | ⟨hnone, hmay⟩
    · exact .inl (heq'.trans heq)
    · exact .inr ⟨heq.symm.trans hnone, hmay⟩
  · exact .inr hnew

/-- Something may be kept under a key that was free before. -/
theorem cons (h : Settles may kept kept') (hfree : kept.lookup n = none) (hmay : may n = true)
    (b : β) : Settles may kept ((n, b) :: kept') := by
  intro n'
  by_cases heq : n' = n
  · subst heq
    exact .inr ⟨hfree, hmay⟩
  · rw [List.lookup_cons, beq_false_of_ne heq]
    exact h n'

/-- What is kept stays. -/
theorem lookup_of_some (h : Settles may kept kept') {b : β} (hn : kept.lookup n = some b) :
    kept'.lookup n = some b := by
  rcases h n with heq | ⟨hnone, -⟩
  · exact heq.trans hn
  · rw [hn] at hnone
    cases hnone

/-- Nothing is kept that may not be. -/
theorem lookup_of_none (h : Settles may kept kept') (hmay : may n = false) :
    kept'.lookup n = kept.lookup n := by
  rcases h n with heq | ⟨-, htrue⟩
  · exact heq
  · rw [hmay] at htrue
    cases htrue

end Settles

/-- A memory in which what another one keeps of nodes and definitions is kept, and something more of
nodes that have a value and of definitions. -/
structure Memory.Remembers (p : Program) (m m' : Memory) : Prop where
  /-- The types of nodes stay. -/
  nodeTypes : Settles p.hasValue m.nodeTypes m'.nodeTypes
  /-- The types of class definitions stay. -/
  classes : Settles p.isClass m.classes m'.classes
  /-- The types of function definitions stay. -/
  functions : Settles p.isFunction m.functions m'.functions

instance (p : Program) : Tolerant (Memory.Remembers p) where
  spares h := ⟨h.nodeTypes ▸ .refl _, h.classes ▸ .refl _, h.functions ▸ .refl _⟩
  trans h h' := ⟨h.nodeTypes.trans h'.nodeTypes, h.classes.trans h'.classes,
    h.functions.trans h'.functions⟩

namespace Evaluation

variable {p : Program} {n : NodeId} {m : Memory}

/-- Changes of the store do not matter for what is kept. -/
theorem remembers_withStore (s : TypeStore) : m.Remembers p { m with store := s } :=
  ⟨.refl _, .refl _, .refl _⟩

/-- The evaluation of a node remembers, and what it answers is kept of the node, unless a guard
stands in the way. -/
theorem remembers_node (n : NodeId) :
    Ensures (Query.AnswersBy (Memory.Remembers p)) m (Expressions.node p n) fun a m' =>
      m.Remembers p m' ∧ ((m.nodeGuard.enter n).1 = .entered →
        (p.hasValue n = true → a.isSome) → m'.nodeTypes.lookup n = a) := by
  refine .get ?_
  split
  · rename_i type htype
    exact .ret ⟨Tolerant.refl m, fun _ _ => htype⟩
  · rename_i hfree
    refine ensures_guarded (fun hdenied => ⟨Tolerant.refl m, fun h => absurd h hdenied⟩)
      fun _ => ?_
    -- Nothing is kept of a node without a value, since it never gets a type.
    cases hvalue : p.hasValue n with
    | false =>
      show (Expressions.compute p n _).Meets _ _ _
      rw [compute_of_not_hasValue hvalue]
      exact ⟨⟨.refl _, .refl _, .refl _⟩, fun _ _ => hfree⟩
    | true =>
      have hcompute : ChangesBy (Memory.Remembers p) (Expressions.compute p n) :=
        changes_compute p fun parameters _ _ =>
          changes_lambda p (fun m _ _ => remembers_withStore _) parameters
      refine (Ensures.of_changes hcompute).weaken fun a m' hm' => ?_
      cases a with
      | none => exact ⟨⟨hm'.nodeTypes, hm'.classes, hm'.functions⟩, fun _ h => nomatch h rfl⟩
      | some type =>
        exact ⟨⟨hm'.nodeTypes.cons hfree hvalue type, hm'.classes, hm'.functions⟩,
          fun _ _ => List.lookup_cons_self⟩

/-- The types of a class definition may be kept if none were before. -/
theorem remembers_keepClass {m' : Memory} (hm : m.Remembers p m')
    (hfree : m.classes.lookup n = none) (hclass : p.isClass n = true) (types : DefinitionTypes) :
    m.Remembers p { m' with classes := (n, types) :: m'.classes } :=
  { hm with classes := hm.classes.cons hfree hclass types }

/-- The types of a function definition may be kept if none were before. -/
theorem remembers_keepFunction {m' : Memory} (hm : m.Remembers p m')
    (hfree : m.functions.lookup n = none) (hfunction : p.isFunction n = true)
    (types : DefinitionTypes) :
    m.Remembers p { m' with functions := (n, types) :: m'.functions } :=
  { hm with functions := hm.functions.cons hfree hfunction types }

/-- Working out a class definition of which nothing is kept remembers, and its types are kept. -/
theorem remembers_newClass (hfree : m.classes.lookup n = none) (hclass : p.isClass n = true)
    (decorators arguments : List NodeId) (body : NodeId) :
    Ensures (Query.AnswersBy (Memory.Remembers p)) m
      (Definitions.newClass p n decorators arguments body) fun types m' =>
        m.Remembers p m' ∧ m'.classes.lookup n = some types := by
  have hkeep : ∀ {m'}, m.Remembers p m' → ∀ types,
      Ensures (Query.AnswersBy (Memory.Remembers p)) m' (Definitions.keepClass n types)
        fun _ m'' => m.Remembers p m'' ∧ m''.classes.lookup n = some types :=
    fun hm' types => ⟨remembers_keepClass hm' hfree hclass types, List.lookup_cons_self⟩
  have hmodify : ∀ (m : Memory) detail change, m.Remembers p
      { m with store := m.store.modifyClass detail change } := fun _ _ _ => remembers_withStore _
  unfold Definitions.newClass
  extract_lets name
  refine Ensures.bind (.of_changes (.work fun _ => remembers_withStore _)) fun detail m1 h1 => ?_
  refine (Ensures.of_changes_after h1 (.onStore (TypeStore.keeping_classType _))).bind
    fun classType m2 h2 => ?_
  -- The types are kept twice: before the parts are evaluated, and decorated at the end.
  refine (hkeep h2 _).bind fun _ m3 ⟨h3, _⟩ => ?_
  refine (Ensures.of_changes_after h3 (changes_heritage p arguments)).bind fun h m4 h4 => ?_
  refine (Ensures.of_changes_after h4 (changes_completeHeritage p
    (fun m change _ => hmodify m _ change) classType h body)).bind fun _ m5 h5 => ?_
  refine (Ensures.of_changes_after h5 (changes_completeFields p
    (fun m change _ => hmodify m _ change) n)).bind fun _ m6 h6 => ?_
  refine (Ensures.of_changes_after h6 (.foldlM (changes_decorateClass p
    (.of_modifies fun m change _ => hmodify m detail change)) _ _)).bind
    fun decorated m7 h7 => ?_
  exact (hkeep h7 _).bind fun _ m8 h8 => .ret h8

/-- The evaluation of a class definition remembers, and what it answers is kept of the class. -/
theorem remembers_classDef (n : NodeId) :
    Ensures (Query.AnswersBy (Memory.Remembers p)) m (Definitions.classDef p n) fun a m' =>
      m.Remembers p m' ∧ m'.classes.lookup n = a := by
  refine .get ?_
  split
  · rename_i types htypes
    exact .ret ⟨Tolerant.refl m, htypes⟩
  · rename_i hfree
    split
    · exact (remembers_newClass hfree (isClass_of_form? p ‹_›) _ _ _).bind fun _ _ h => .ret h
    · exact .ret ⟨Tolerant.refl m, hfree⟩

/-- Working out a function definition of which nothing is kept remembers, and its types are kept. -/
theorem remembers_newFunction (hfree : m.functions.lookup n = none)
    (hfunction : p.isFunction n = true) (decorators : List NodeId) (isAsync : Bool)
    (parameters : List NodeId) (returnHint : Option NodeId) (owner : Option ClassId) :
    Ensures (Query.AnswersBy (Memory.Remembers p)) m
      (Definitions.newFunction p n decorators isAsync parameters returnHint owner) fun types m' =>
        m.Remembers p m' ∧ m'.functions.lookup n = some types := by
  have hkeep : ∀ {m'}, m.Remembers p m' → ∀ types,
      Ensures (Query.AnswersBy (Memory.Remembers p)) m' (Definitions.keepFunction n types)
        fun _ m'' => m.Remembers p m'' ∧ m''.functions.lookup n = some types :=
    fun hm' types => ⟨remembers_keepFunction hm' hfree hfunction types, List.lookup_cons_self⟩
  unfold Definitions.newFunction
  extract_lets name
  refine (Ensures.of_changes (changes_functionFlags p n name decorators isAsync owner)).bind
    fun flags m1 h1 => ?_
  refine (Ensures.of_changes_after h1 (.work fun _ => remembers_withStore _)).bind
    fun detail m2 h2 => ?_
  refine (Ensures.of_changes_after h2 (.onStore (TypeStore.keeping_add _))).bind
    fun functionType m3 h3 => ?_
  refine (hkeep h3 _).bind fun _ m4 ⟨h4, _⟩ => ?_
  refine (Ensures.of_changes_after h4 (changes_completeSignature p detail flags owner parameters
    returnHint)).bind fun _ m5 h5 => ?_
  refine (Ensures.of_changes_after h5 (.foldlM (changes_decorateFunction p detail) _ _)).bind
    fun decorated m6 h6 => ?_
  refine (Ensures.of_changes_after h6 (changes_joined p n name decorated)).bind
    fun joined m7 h7 => ?_
  exact (hkeep h7 _).bind fun _ m8 h8 => .ret h8

/-- The evaluation of a function definition remembers, and what it answers is kept of the
function. -/
theorem remembers_function (n : NodeId) :
    Ensures (Query.AnswersBy (Memory.Remembers p)) m (Definitions.function p n) fun a m' =>
      m.Remembers p m' ∧ m'.functions.lookup n = a := by
  refine .get ?_
  split
  · rename_i types htypes
    exact .ret ⟨Tolerant.refl m, htypes⟩
  · rename_i hfree
    split
    · rename_i hform
      refine (Ensures.of_changes (changes_ownerOf p n)).bind fun owner m1 h1 => .get ?_
      -- The class around may have worked out the function meanwhile.
      split
      · rename_i types htypes
        exact .ret ⟨h1, htypes⟩
      · rename_i hfree'
        refine (remembers_newFunction hfree' (isFunction_of_form? p hform) _ _ _ _ _).bind
          fun _ _ h => .ret ⟨Tolerant.trans h1 h.1, h.2⟩
    · exact .ret ⟨Tolerant.refl m, hfree⟩

/-- The rules remember. -/
theorem remembers_rule (q : Query) (m : Memory) :
    Ensures (Query.AnswersBy (Memory.Remembers p)) m (q.rule p) fun _ m' => m.Remembers p m' := by
  cases q with
  | node n => exact (remembers_node n).weaken fun _ _ h => h.1
  | classDef n => exact (remembers_classDef n).weaken fun _ _ h => h.1
  | function n => exact (remembers_function n).weaken fun _ _ h => h.1
  | _ =>
    exact .of_changes (changes_plain p (fun _ _ _ _ => ⟨.refl _, .refl _, .refl _⟩) rfl)

end Evaluation

namespace Query

open Evaluation

variable {p : Program} {m m' m'' : Memory} {n : NodeId}

/-- What is kept stays with every answer. -/
theorem remembers_of_answer {q : Query} {a : q.Answer} (h : q.answer p m = some (a, m')) :
    m.Remembers p m' :=
  Ensures.of_run remembers_rule (remembers_rule q m) h

/-- A question that its rule answers at once is answered so. -/
theorem answer_of_rule {q : Query} {r : q.Answer × Memory} (h : q.rule p m = .done r) :
    q.answer p m = some r :=
  (congrArg (Dialogue.run p) h).trans (Dialogue.run_done r)

/-- The type that is kept of a node is its type. -/
theorem answer_node_of_kept {type : TypeId} (h : m.nodeTypes.lookup n = some type) :
    (Query.node n).answer p m = some (some type, m) := by
  refine answer_of_rule (q := .node n) ?_
  show Expressions.node p n m = _
  unfold Expressions.node
  rw [get_bind, h]
  rfl

/-- The type of a node can be worked out if nothing is being worked out. -/
theorem enter_of_idle (hm : m.Idle) (n : NodeId) :
    (nodeSlot.guard m).enter n = (.entered, ⟨[n], 1, Guard.evaluationLimit⟩) := by
  rw [show nodeSlot.guard m = Guard.ofLimit Guard.evaluationLimit from hm.nodeGuard]
  rfl

/-- A node without a value has no type, and nothing is changed if nothing is being worked out. -/
theorem answer_node_of_not_hasValue (h : p.hasValue n = false) (hm : m.Idle)
    (hfree : m.nodeTypes.lookup n = none) : (Query.node n).answer p m = some (none, m) := by
  -- The guard is left as it was found.
  have hleave : Guard.leave ⟨[n], 1, Guard.evaluationLimit⟩ n = m.nodeGuard :=
    (Guard.leave_further (Guard.ofLimit Guard.evaluationLimit) n).trans hm.nodeGuard.symm
  refine answer_of_rule (q := .node n) ?_
  show Expressions.node p n m = _
  unfold Expressions.node guarded
  rw [get_bind, hfree]
  dsimp only
  rw [get_bind, enter_of_idle hm]
  show (Expressions.compute p n _).bind _ = _
  rw [compute_of_not_hasValue h]
  exact congrArg (fun g => Dialogue.done (none, { m with nodeGuard := g })) hleave

/-- A class definition of which types are kept has these. -/
theorem answer_classDef_of_kept {types : DefinitionTypes} (h : m.classes.lookup n = some types) :
    (Query.classDef n).answer p m = some (some types, m) := by
  refine answer_of_rule (q := .classDef n) ?_
  show Definitions.classDef p n m = _
  unfold Definitions.classDef
  rw [get_bind, h]
  rfl

/-- What is no class definition has no types of one. -/
theorem answer_classDef_of_not_isClass (h : p.isClass n = false)
    (hfree : m.classes.lookup n = none) : (Query.classDef n).answer p m = some (none, m) := by
  refine answer_of_rule (q := .classDef n) ?_
  show Definitions.classDef p n m = _
  unfold Definitions.classDef
  rw [get_bind, hfree]
  cases hform : p.arena.form? n with
  | none => rfl
  | some form =>
    cases form with
    | classDef decorators name arguments body =>
      rw [isClass_of_form? p hform] at h
      cases h
    | _ => rfl

/-- A function definition of which types are kept has these. -/
theorem answer_function_of_kept {types : DefinitionTypes}
    (h : m.functions.lookup n = some types) :
    (Query.function n).answer p m = some (some types, m) := by
  refine answer_of_rule (q := .function n) ?_
  show Definitions.function p n m = _
  unfold Definitions.function
  rw [get_bind, h]
  rfl

/-- What is no function definition has no types of one. -/
theorem answer_function_of_not_isFunction (h : p.isFunction n = false)
    (hfree : m.functions.lookup n = none) : (Query.function n).answer p m = some (none, m) := by
  refine answer_of_rule (q := .function n) ?_
  show Definitions.function p n m = _
  unfold Definitions.function
  rw [get_bind, hfree]
  cases hform : p.arena.form? n with
  | none => rfl
  | some form =>
    cases form with
    | function decorators isAsync name parameters returnHint body =>
      rw [isFunction_of_form? p hform] at h
      cases h
    | _ => rfl

/-- What is given whenever something holds is missing only where it does not. -/
theorem eq_false_of_isSome {α : Type} {b : Bool} (h : b = true → (none : Option α).isSome) :
    b = false := by
  cases b with
  | false => rfl
  | true => cases h rfl

/-- A node of an idle memory has the same type whenever it is asked for again. -/
theorem answer_node_again {a : Option TypeId} (h : (Query.node n).answer p m = some (a, m'))
    (hm : m.Idle) (hm'' : m''.Idle) (hlater : m'.Remembers p m'') :
    (Query.node n).answer p m'' = some (a, m'') := by
  have hgiven : p.hasValue n = true → a.isSome :=
    Ensures.of_run (fun q _ => ensures_given q) (ensures_given (.node n)) h
  have hentered : (m.nodeGuard.enter n).1 = .entered := congrArg Prod.fst (enter_of_idle hm n)
  have hkept := (Ensures.of_run remembers_rule (remembers_node n) h).2 hentered hgiven
  cases a with
  | some type => exact answer_node_of_kept (hlater.nodeTypes.lookup_of_some hkept)
  | none =>
    have hvalue := eq_false_of_isSome hgiven
    exact answer_node_of_not_hasValue hvalue hm''
      ((hlater.nodeTypes.lookup_of_none hvalue).trans hkept)

/-- A class definition has the same types whenever it is asked for again. -/
theorem answer_classDef_again {a : Option DefinitionTypes}
    (h : (Query.classDef n).answer p m = some (a, m')) (hlater : m'.Remembers p m'') :
    (Query.classDef n).answer p m'' = some (a, m'') := by
  have hgiven : p.isClass n = true → a.isSome :=
    Ensures.of_run (fun q _ => ensures_given q) (ensures_given (.classDef n)) h
  have hkept := (Ensures.of_run remembers_rule (remembers_classDef n) h).2
  cases a with
  | some types => exact answer_classDef_of_kept (hlater.classes.lookup_of_some hkept)
  | none =>
    have hclass := eq_false_of_isSome hgiven
    exact answer_classDef_of_not_isClass hclass
      ((hlater.classes.lookup_of_none hclass).trans hkept)

/-- A function definition has the same types whenever it is asked for again. -/
theorem answer_function_again {a : Option DefinitionTypes}
    (h : (Query.function n).answer p m = some (a, m')) (hlater : m'.Remembers p m'') :
    (Query.function n).answer p m'' = some (a, m'') := by
  have hgiven : p.isFunction n = true → a.isSome :=
    Ensures.of_run (fun q _ => ensures_given q) (ensures_given (.function n)) h
  have hkept := (Ensures.of_run remembers_rule (remembers_function n) h).2
  cases a with
  | some types => exact answer_function_of_kept (hlater.functions.lookup_of_some hkept)
  | none =>
    have hfunction := eq_false_of_isSome hgiven
    exact answer_function_of_not_isFunction hfunction
      ((hlater.functions.lookup_of_none hfunction).trans hkept)

end Query

namespace Checker

open Evaluation

variable {c c' : Checker}

/-- An answer is that of the memory, for the same program. -/
theorem ask?_eq_some {q : Query} {a : q.Answer} (h : c.ask? q = some (a, c')) :
    q.answer c.program c.memory = some (a, c'.memory) ∧ c'.program = c.program := by
  obtain ⟨⟨a', m'⟩, hanswer, heq⟩ := Option.map_eq_some_iff.1 h
  cases heq
  exact ⟨hanswer, rfl⟩

/-- Answers are given of nodes that have a value and of definitions. -/
theorem given_of_ask? {q : Query} {a : q.Answer} (h : c.ask? q = some (a, c')) :
    q.Given c.program c.memory a c'.memory :=
  Ensures.of_run (fun q _ => ensures_given q) (ensures_given q) (ask?_eq_some h).1

/-- What a checker for a file answers for a node is kept of it. -/
theorem Reached.lookup_of_typeOf? {name text : String}
    (h : Reached (SourceFile.ofText name text) c) {n : NodeId} {answer : Option TypeId}
    (ha : c.typeOf? n = some (answer, c')) : c'.memory.nodeTypes.lookup n = answer :=
  (Ensures.of_run remembers_rule (remembers_node n) (ask?_eq_some ha).1).2
    (congrArg Prod.fst (Query.enter_of_idle h.idle n)) (given_of_ask? ha)

/-- A checker for the same program remembers what was kept before. -/
theorem Later.remembers (h : Later c c') :
    c'.program = c.program ∧ c.memory.Remembers c.program c'.memory := by
  induction h with
  | refl => exact ⟨rfl, Tolerant.refl _⟩
  | answered _ _ ha ih =>
    obtain ⟨hprogram, hmemory⟩ := ih
    obtain ⟨hanswer, hprogram'⟩ := ask?_eq_some ha
    rw [hprogram] at hanswer
    exact ⟨hprogram'.trans hprogram, Tolerant.trans hmemory (Query.remembers_of_answer hanswer)⟩

/-- A checker gives the same answer later on, and is not changed by it, if its program does on what
it remembers. -/
theorem Later.ask?_again {q : Query} {a : q.Answer} {c₁ c₂ : Checker}
    (ha : c.ask? q = some (a, c₁)) (hlater : Later c₁ c₂)
    (hagain : c₁.memory.Remembers c.program c₂.memory →
      q.answer c.program c₂.memory = some (a, c₂.memory)) : c₂.ask? q = some (a, c₂) := by
  obtain ⟨-, hprogram⟩ := ask?_eq_some ha
  obtain ⟨hprogram', hremembers⟩ := hlater.remembers
  rw [hprogram] at hprogram' hremembers
  rw [ask?, hprogram', hagain hremembers, ← hprogram']
  rfl

/-- Whatever a checker for a file has been asked before and in between, it gives the same answer to
the question which types a node, a class or a function has when it is asked again, and is not
changed by it. -/
theorem answers_again {name text : String} (h : Reached (SourceFile.ofText name text) c)
    (n : NodeId) :
    (∀ t c₁ c₂, c.typeOf? n = some (t, c₁) → Later c₁ c₂ → c₂.typeOf? n = some (t, c₂)) ∧
    (∀ t c₁ c₂, c.classOf? n = some (t, c₁) → Later c₁ c₂ → c₂.classOf? n = some (t, c₂)) ∧
    (∀ t c₁ c₂, c.functionOf? n = some (t, c₁) → Later c₁ c₂ →
      c₂.functionOf? n = some (t, c₂)) := by
  refine ⟨fun t c₁ c₂ ha hlater => ?_, fun t c₁ c₂ ha hlater => ?_, fun t c₁ c₂ ha hlater => ?_⟩
  · have hidle := ((h.answered (q := .node n) trivial ha).later hlater).idle
    exact hlater.ask?_again ha
      (Query.answer_node_again (ask?_eq_some ha).1 h.idle hidle)
  · exact hlater.ask?_again ha (Query.answer_classDef_again (ask?_eq_some ha).1)
  · exact hlater.ask?_again ha (Query.answer_function_again (ask?_eq_some ha).1)

/-- A checker that is asked for the number in a class definition and for the definition, which is no
function, with another question in between: what it answers first it answers again. -/
theorem answers_again_classDef :
    let c := (SourceFile.ofText "a.py" "class A: x = 1\n").checker
    (∃ t c₁ a c₂, c.typeOf? 2 = some (t, c₁) ∧ c₁.classOf? 6 = some (a, c₂) ∧
      c₂.typeOf? 2 = some (t, c₂)) ∧
    (∃ t c₁ a c₂, c.classOf? 6 = some (t, c₁) ∧ c₁.typeOf? 1 = some (a, c₂) ∧
      c₂.classOf? 6 = some (t, c₂)) ∧
    (∃ t c₁ a c₂, c.functionOf? 6 = some (t, c₁) ∧ c₁.classOf? 6 = some (a, c₂) ∧
      c₂.functionOf? 6 = some (t, c₂)) := by
  intro c
  have hstart : Reached (SourceFile.ofText "a.py" "class A: x = 1\n") c := .start
  obtain ⟨hnode, -, -⟩ := answers_again hstart 2
  obtain ⟨-, hclass, hfunction⟩ := answers_again hstart 6
  refine ⟨?_, ?_, ?_⟩
  · obtain ⟨t, c₁, a, c₂, ht, ha⟩ :=
      exists_answers (c := c) (q := .node 2) (r := .classDef 6) 9 (by decide +kernel)
    exact ⟨t, c₁, a, c₂, ht, ha,
      hnode t c₁ c₂ ht (.answered (q := .classDef 6) .refl trivial ha)⟩
  · obtain ⟨t, c₁, a, c₂, ht, ha⟩ :=
      exists_answers (c := c) (q := .classDef 6) (r := .node 1) 9 (by decide +kernel)
    exact ⟨t, c₁, a, c₂, ht, ha, hclass t c₁ c₂ ht (.answered (q := .node 1) .refl trivial ha)⟩
  · obtain ⟨t, c₁, a, c₂, ht, ha⟩ :=
      exists_answers (c := c) (q := .function 6) (r := .classDef 6) 9 (by decide +kernel)
    exact ⟨t, c₁, a, c₂, ht, ha,
      hfunction t c₁ c₂ ht (.answered (q := .classDef 6) .refl trivial ha)⟩

end Checker

end TypeProbe
