import TypeProbe.Proofs.Inference.Repeats

/-!
# One record for each definition

The rules for class definitions, for function definitions and for functions without a name each make
a record in the store, of a class or a function that the node defines (`Query.records`), and keep
something of the node (`Query.isKept`). A class, and a function without a name, is kept at once, so
there is no more than one record of it. A function is kept only when the decorators have been looked
at. So there is a second record exactly if a decorator has led back to the function
(`Query.Reenters`, `Checker.records_le_one`).
-/

namespace TypeProbe

/-- Whether a node is a function without a name. -/
def Program.isLambda (p : Program) (n : NodeId) : Bool := p.arena.kind? n == some .lambda

/-- The expressions of the decorators of a function definition. -/
def Program.decoratorsOf (p : Program) (n : NodeId) : List NodeId :=
  match p.arena.form? n with
  | some (.function decorators ..) => decorators.filterMap p.decoratorExpression?
  | _ => []

/-- How many classes of a store a node defines. -/
def TypeStore.classRecords (s : TypeStore) (n : NodeId) : Nat :=
  (s.classes.map (·.declaration)).count (some n)

/-- How many functions of a store a node defines. -/
def TypeStore.functionRecords (s : TypeStore) (n : NodeId) : Nat :=
  (s.functions.map (·.declaration)).count (some n)

namespace Query

/-- Whether the rule for a question makes a record. -/
def makesRecord (p : Program) : Query → Bool
  | .classDef n => p.isClass n
  | .function n => p.isFunction n
  | .node n => p.isLambda n
  | .declaration _ | .hint _ | .call _ _ | .member _ _ | .returned _ => false

/-- How many records a store has of what a question is for. -/
def records : Query → TypeStore → Nat
  | .classDef n, s => s.classRecords n
  | .function n, s | .node n, s => s.functionRecords n
  | .declaration _, _ | .hint _, _ | .call _ _, _ | .member _ _, _ | .returned _, _ => 0

/-- Whether something is kept of what a question is for. -/
def isKept : Query → Memory → Bool
  | .classDef n, m => (m.classes.lookup n).isSome
  | .function n, m => (m.functions.lookup n).isSome
  | .node n, m => (m.nodeTypes.lookup n).isSome
  | .declaration _, _ | .hint _, _ | .call _ _, _ | .member _ _, _ | .returned _, _ => false

/-- A memory with the same records, and of which the same is kept. -/
structure Leaves (q : Query) (m m' : Memory) : Prop where
  /-- There are as many records. -/
  records : q.records m'.store = q.records m.store
  /-- It is kept if it was before. -/
  isKept : q.isKept m' = q.isKept m

/-- A memory with at least as many records more as are newly kept. -/
structure Gains (q : Query) (m m' : Memory) : Prop where
  /-- What is kept stays. -/
  isKept : q.isKept m = true → q.isKept m' = true
  /-- Of what is newly kept there is a new record. -/
  records : q.records m.store + (q.isKept m').toNat ≤ q.records m'.store + (q.isKept m).toNat

/-- A memory with exactly as many records more as are newly kept. -/
structure Balances (q : Query) (m m' : Memory) : Prop where
  /-- What is kept stays. -/
  isKept : q.isKept m = true → q.isKept m' = true
  /-- There is a new record exactly if something is newly kept. -/
  records : q.records m.store + (q.isKept m').toNat = q.records m'.store + (q.isKept m).toNat

/-- A memory in which a record has been made and kept. -/
structure Makes (q : Query) (m m' : Memory) : Prop where
  /-- There is one more record. -/
  records : q.records m'.store = q.records m.store + 1
  /-- It is kept. -/
  isKept : q.isKept m' = true

variable {q : Query} {m m' m'' : Memory}

/-- What keeps all definitions leaves each. -/
theorem Leaves.of_keeps (h : m.Keeps m') : q.Leaves m m' where
  records := by
    have hclasses := congrArg (Array.map ClassCore.declaration) h.store.classes
    have hfunctions := congrArg (Array.map FunctionCore.declaration) h.store.functions
    rw [Array.map_map, Array.map_map] at hclasses hfunctions
    cases q with
    | classDef n => exact congrArg (Array.count (some n)) hclasses
    | function n => exact congrArg (Array.count (some n)) hfunctions
    | node n => exact congrArg (Array.count (some n)) hfunctions
    | _ => rfl
  isKept := by
    cases q with
    | classDef n => exact congrArg (fun kept => (kept.lookup n).isSome) h.classes
    | function n => exact congrArg (fun kept => (kept.lookup n).isSome) h.functions
    | node n => exact congrArg (fun kept => (kept.lookup n).isSome) h.nodeTypes
    | _ => rfl

/-- What leaves the records and what is kept gains nothing. -/
theorem Leaves.balances (h : q.Leaves m m') : q.Balances m m' where
  isKept hm := h.isKept.trans hm
  records := by rw [h.records, h.isKept]

/-- Records stay. -/
theorem Gains.records_le (h : q.Gains m m') : q.records m.store ≤ q.records m'.store := by
  have hrecords := h.records
  cases hm : q.isKept m with
  | false =>
    rw [hm] at hrecords
    exact Nat.le_trans (Nat.le_add_right _ _) hrecords
  | true =>
    rw [hm, h.isKept hm] at hrecords
    exact Nat.le_of_add_le_add_right hrecords

/-- What is not kept later on was not kept before. -/
theorem Gains.isKept_eq_false (h : q.Gains m m') (hm' : q.isKept m' = false) :
    q.isKept m = false :=
  eq_false_of_ne_true fun hm => by rw [h.isKept hm] at hm'; cases hm'

/-- What balances gains as much as there has to be. -/
theorem Balances.gains (h : q.Balances m m') : q.Gains m m' := ⟨h.isKept, Nat.le_of_eq h.records⟩

/-- If there are as many records as are kept, that stays so when both balance. -/
theorem Balances.records_eq (h : q.Balances m m')
    (hm : q.records m.store = (q.isKept m).toNat) :
    q.records m'.store = (q.isKept m').toNat := by
  have hrecords := h.records
  rw [hm, Nat.add_comm] at hrecords
  exact (Nat.add_right_cancel hrecords).symm

/-- What is made is gained. -/
theorem Makes.gains (h : q.Makes m m') : q.Gains m m' where
  isKept _ := h.isKept
  records := by
    rw [h.records, h.isKept]
    exact Nat.le_add_right _ _

/-- What is made balances if it was not kept before. -/
theorem Makes.balances (h : q.Makes m m') (hm : q.isKept m = false) : q.Balances m m' where
  isKept _ := h.isKept
  records := by
    rw [h.records, h.isKept, hm]
    rfl

instance : Tolerant q.Leaves where
  spares h := .of_keeps h.toKeeps
  trans h h' := ⟨h'.records.trans h.records, h'.isKept.trans h.isKept⟩

instance : Tolerant q.Gains where
  spares h := (Leaves.of_keeps h.toKeeps).balances.gains
  trans h h' := ⟨fun hm => h'.isKept (h.isKept hm), by have := h.records; have := h'.records; omega⟩

instance : Tolerant q.Balances where
  spares h := (Leaves.of_keeps h.toKeeps).balances
  trans h h' := ⟨fun hm => h'.isKept (h.isKept hm), by have := h.records; have := h'.records; omega⟩

end Query

/-! ## The rules for other questions -/

/-- A class that is added is no record of another definition. -/
theorem TypeStore.classRecords_addClass {n : NodeId} {c : ClassDetail}
    (h : c.declaration ≠ some n) (s : TypeStore) :
    (s.addClass c).2.classRecords n = s.classRecords n := by
  show Array.count _ (Array.map _ (s.classes.push _)) = _
  rw [Array.map_push, Array.count_push_of_ne h]
  rfl

/-- A class that is added is a record of its definition. -/
theorem TypeStore.classRecords_addClass_self {n : NodeId} {c : ClassDetail}
    (h : c.declaration = some n) (s : TypeStore) :
    (s.addClass c).2.classRecords n = s.classRecords n + 1 := by
  show Array.count _ (Array.map _ (s.classes.push _)) = _
  rw [Array.map_push, show ({ c with sourceId := s.classes.size + 1 } : ClassDetail).declaration =
    some n from h, Array.count_push_self]
  rfl

/-- A function that is added is no record of another definition. -/
theorem TypeStore.functionRecords_addFunction {n : NodeId} {f : FunctionDetail}
    (h : f.declaration ≠ some n) (s : TypeStore) :
    (s.addFunction f).2.functionRecords n = s.functionRecords n := by
  show Array.count _ (Array.map _ (s.functions.push f)) = _
  rw [Array.map_push, Array.count_push_of_ne h]
  rfl

/-- A function that is added is a record of its definition. -/
theorem TypeStore.functionRecords_addFunction_self {n : NodeId} {f : FunctionDetail}
    (h : f.declaration = some n) (s : TypeStore) :
    (s.addFunction f).2.functionRecords n = s.functionRecords n + 1 := by
  show Array.count _ (Array.map _ (s.functions.push f)) = _
  rw [Array.map_push, h, Array.count_push_self]
  rfl

/-- Changing a class leaves the records if it leaves what the class is a record of. -/
theorem TypeStore.classRecords_modifyClass (n : NodeId) (s : TypeStore) (d : ClassId)
    {change : ClassDetail → ClassDetail}
    (h : ∀ c, (change c).declaration = c.declaration) :
    (s.modifyClass d change).classRecords n = s.classRecords n :=
  congrArg (Array.count (some n)) (map_modify h s.classes d.index)

namespace Query

variable {p : Program} {q : Query} {n : NodeId}

/-- Keeping the type of a node leaves other definitions. -/
theorem leaves_keepNode (hne : .node n ≠ q) (m : Memory) (type : TypeId) :
    q.Leaves m { m with nodeTypes := (n, type) :: m.nodeTypes } := by
  cases q with
  | node n' =>
    have hn : n' ≠ n := fun heq => hne (heq ▸ rfl)
    exact ⟨rfl, congrArg Option.isSome (TypeStore.lookup_cons_of_ne hn _ _)⟩
  | _ => exact ⟨rfl, rfl⟩

/-- Keeping the types of a class definition leaves other definitions. -/
theorem leaves_keepClass (hne : .classDef n ≠ q) (m : Memory) (types : DefinitionTypes) :
    q.Leaves m { m with classes := (n, types) :: m.classes } := by
  cases q with
  | classDef n' =>
    have hn : n' ≠ n := fun heq => hne (heq ▸ rfl)
    exact ⟨rfl, congrArg Option.isSome (TypeStore.lookup_cons_of_ne hn _ _)⟩
  | _ => exact ⟨rfl, rfl⟩

/-- Keeping the types of a function definition leaves other definitions. -/
theorem leaves_keepFunction (hne : .function n ≠ q) (m : Memory) (types : DefinitionTypes) :
    q.Leaves m { m with functions := (n, types) :: m.functions } := by
  cases q with
  | function n' =>
    have hn : n' ≠ n := fun heq => hne (heq ▸ rfl)
    exact ⟨rfl, congrArg Option.isSome (TypeStore.lookup_cons_of_ne hn _ _)⟩
  | _ => exact ⟨rfl, rfl⟩

/-- A class that is added leaves other definitions. -/
theorem leaves_addClass (hne : .classDef n ≠ q) (m : Memory) {c : ClassDetail}
    (hc : c.declaration = some n) : q.Leaves m { m with store := (m.store.addClass c).2 } := by
  cases q with
  | classDef n' =>
    have hdeclaration : c.declaration ≠ some n' := fun heq =>
      hne (congrArg Query.classDef (Option.some.inj (hc.symm.trans heq)))
    exact ⟨TypeStore.classRecords_addClass hdeclaration m.store, rfl⟩
  | _ => exact ⟨rfl, rfl⟩

/-- A function that is added leaves other definitions. -/
theorem leaves_addFunction (hfunction : .function n ≠ q) (hlambda : .node n ≠ q) (m : Memory)
    {f : FunctionDetail} (hf : f.declaration = some n) :
    q.Leaves m { m with store := (m.store.addFunction f).2 } := by
  cases q with
  | function n' =>
    have hdeclaration : f.declaration ≠ some n' := fun heq =>
      hfunction (congrArg Query.function (Option.some.inj (hf.symm.trans heq)))
    exact ⟨TypeStore.functionRecords_addFunction hdeclaration m.store, rfl⟩
  | node n' =>
    have hdeclaration : f.declaration ≠ some n' := fun heq =>
      hlambda (congrArg Query.node (Option.some.inj (hf.symm.trans heq)))
    exact ⟨TypeStore.functionRecords_addFunction hdeclaration m.store, rfl⟩
  | _ => exact ⟨rfl, rfl⟩

/-- A class that is changed leaves all definitions if it is still that of its own. -/
theorem leaves_modifyClass (m : Memory) (d : ClassId) {change : ClassDetail → ClassDetail}
    (h : ∀ c, (change c).declaration = c.declaration) :
    q.Leaves m { m with store := m.store.modifyClass d change } := by
  cases q with
  | classDef n => exact ⟨TypeStore.classRecords_modifyClass n m.store d h, rfl⟩
  | _ => exact ⟨rfl, rfl⟩

end Query

namespace Evaluation

variable {p : Program} {q q' : Query} {R : Memory → Memory → Prop} [Tolerant R]

/-- The rule for another question leaves the records of a definition. -/
theorem changes_of_ne (hR : ∀ {m m'}, q.Leaves m m' → R m m') (hq : q.makesRecord p = true)
    (hne : q' ≠ q) : ChangesBy R (q'.rule p) := by
  obtain hplain | hdefinition := Bool.eq_false_or_eq_true q'.isPlain
  · exact changes_plain p (fun _ _ m type => hR (.of_keeps ⟨.refl _, rfl, rfl, rfl⟩)) hplain
  cases q' with
  | node n =>
    refine changes_node p (fun m type => hR (Query.leaves_keepNode hne m type))
      fun hlambda m f hf => hR (Query.leaves_addFunction ?_ hne m hf)
    -- A function without a name is no function definition.
    rintro rfl
    have hkind : p.arena.kind? n = some .function := eq_of_beq hq
    rw [hlambda] at hkind
    cases hkind
  | classDef n =>
    exact fun m => changes_classDef p (fun m types => hR (Query.leaves_keepClass hne m types))
      (fun c hc => hR (Query.leaves_addClass hne m hc))
      fun m d h => hR (Query.leaves_modifyClass m _ h)
  | function n =>
    refine changes_function p (fun m types => hR (Query.leaves_keepFunction hne m types))
      fun hfunction m f hf => hR (Query.leaves_addFunction hne ?_ m hf)
    rintro rfl
    have hlambda : p.arena.kind? n = some .lambda := eq_of_beq hq
    have hkind : p.arena.kind? n = some .function := eq_of_beq hfunction
    rw [hlambda] at hkind
    cases hkind
  | _ => cases hdefinition

/-! ## Classes and functions without a name -/

variable {m : Memory} {n : NodeId}

/-- What is kept already may be kept anew. -/
theorem isSome_lookup_cons_self {β : Type} {kept : List (NodeId × β)} (b : β)
    (h : (kept.lookup n).isSome = true) :
    (((n, b) :: kept).lookup n).isSome = (kept.lookup n).isSome := by
  rw [List.lookup_cons_self, h]
  rfl

/-- Working out a class definition of which nothing is kept makes a record of it and keeps it. -/
theorem balances_newClass (hfree : m.classes.lookup n = none) (decorators arguments : List NodeId)
    (body : NodeId) : Ensures (Query.AnswersBy (Query.classDef n).Balances) m
      (Definitions.newClass p n decorators arguments body) fun _ m' =>
        (Query.classDef n).Balances m m' := by
  have hmodify : ∀ (m : Memory) detail change, (∀ c, (change c).declaration = c.declaration) →
      (Query.classDef n).Balances m { m with store := m.store.modifyClass detail change } :=
    fun m detail change h => (Query.leaves_modifyClass m detail h).balances
  unfold Definitions.newClass
  extract_lets name
  refine Ensures.onStore.bind fun detail m1 ⟨_, h1⟩ => ?_
  refine Ensures.onStore.bind fun classType m2 ⟨_, h2⟩ => ?_
  refine Ensures.modify.bind fun _ m3 h3 => ?_
  have hmakes : (Query.classDef n).Makes m m3 := by
    have hleaves : (Query.classDef n).Leaves m1 m2 :=
      h2 ▸ .of_keeps (Memory.Spares.of_store (TypeStore.keeping_classType detail m1.store)).toKeeps
    subst h3
    refine ⟨hleaves.records.trans (h1 ▸ TypeStore.classRecords_addClass_self rfl m.store), ?_⟩
    exact congrArg Option.isSome List.lookup_cons_self
  have hstart : (Query.classDef n).Balances m m3 :=
    hmakes.balances (congrArg Option.isSome hfree)
  refine Ensures.weaken ?_ fun _ m' h => Tolerant.trans hstart h
  refine (Ensures.of_changes (changes_heritage p arguments)).bind fun h m4 h4 => ?_
  refine (Ensures.of_changes_after h4 (changes_completeHeritage p (fun m => hmodify m detail)
    classType h body)).bind fun _ m5 h5 => ?_
  refine (Ensures.of_changes_after h5 (changes_completeFields p (fun m => hmodify m detail)
    n)).bind fun _ m6 h6 => ?_
  refine (Ensures.of_changes_after h6 (.foldlM (changes_decorateClass p
    (.of_modifies fun m => hmodify m detail)) _ _)).bind
    fun decorated m7 h7 => ?_
  refine Ensures.modify.bind fun _ m8 h8 => .ret ?_
  subst h8
  refine Tolerant.trans h7 (Query.Leaves.balances ⟨rfl, ?_⟩)
  exact isSome_lookup_cons_self _ (h7.isKept hmakes.isKept)

/-- The rules make as many records of a class as they newly keep. -/
theorem balances_rule_of_isClass (hn : p.isClass n = true) (q : Query) (m : Memory) :
    Ensures (Query.AnswersBy (Query.classDef n).Balances) m (q.rule p) fun _ m' =>
      (Query.classDef n).Balances m m' := by
  by_cases hq : q = .classDef n
  · subst hq
    refine .get ?_
    split
    · exact .ret (Tolerant.refl m)
    · rename_i hfree
      split
      · exact (balances_newClass hfree _ _ _).bind fun _ _ h => .ret h
      · exact .ret (Tolerant.refl m)
  · exact .of_changes (changes_of_ne (q := .classDef n) Query.Leaves.balances hn hq)

/-- Only a function without a name is one. -/
theorem form?_of_isLambda (h : p.isLambda n = true) :
    ∃ parameters expression, p.arena.form? n = some (.lambda parameters expression) := by
  obtain ⟨form, hform, hkind⟩ := Arena.form?_of_kind? (eq_of_beq h)
  cases form with
  | lambda parameters expression => exact ⟨_, _, hform⟩
  | _ => cases hkind

/-- A function without a name makes a record of it. -/
theorem makes_lambda (parameters : List NodeId)
    {answers : (q : Query) → Memory → q.Answer → Memory → Prop} :
    Ensures answers m (Expressions.lambda p n parameters) fun _ m' =>
      m'.store.functionRecords n = m.store.functionRecords n + 1 := by
  refine Ensures.onStore.bind fun detail m1 ⟨_, h1⟩ => Ensures.onStore.weaken ?_
  rintro _ m2 ⟨-, rfl⟩
  subst h1
  exact TypeStore.functionRecords_addFunction_self rfl m.store

/-- The rules make as many records of a function without a name as they newly keep. -/
theorem balances_rule_of_isLambda (hn : p.isLambda n = true) (q : Query) (m : Memory) :
    Ensures (Query.AnswersBy (Query.node n).Balances) m (q.rule p) fun _ m' =>
      (Query.node n).Balances m m' := by
  by_cases hq : q = .node n
  · subst hq
    refine .get ?_
    split
    · exact .ret (Tolerant.refl m)
    · rename_i hfree
      obtain ⟨parameters, expression, hform⟩ := form?_of_isLambda hn
      refine ensures_guarded (fun _ => Tolerant.refl m) fun _ => ?_
      unfold Expressions.compute
      rw [hform]
      refine (makes_lambda parameters).map fun type m' hmakes => ?_
      have hmakes' : (Query.node n).Makes m { m' with
          nodeGuard := m'.nodeGuard.leave n, nodeTypes := (n, type) :: m'.nodeTypes } :=
        ⟨hmakes, congrArg Option.isSome List.lookup_cons_self⟩
      exact hmakes'.balances (congrArg Option.isSome hfree)
  · exact .of_changes (changes_of_ne (q := .node n) Query.Leaves.balances hn hq)

end Evaluation

/-! ## The evaluation of a function definition -/

namespace Dialogue

variable {p : Program} {α : Type} {R : Memory → Memory → Prop} [Tolerant R]
  {d : Dialogue (α × Memory)} {m : Memory}

/-- A dialogue has changed the memory as a relation allows when it asks a question, and does so
again when that has been answered, if all answers do. -/
theorem ChangesBy.of_asks (h : d.ChangesBy R m)
    (hanswers : ∀ {q : Query} {m' a m''}, q.answer p m' = some (a, m'') → R m' m'') {q : Query}
    {m' : Memory} (hasks : d.Asks p q m') : R m m' ∧ ∀ {r a m''}, d.run p = some r →
      q.answer p m' = some (a, m'') → R m'' r.2 := by
  induction d generalizing m with
  | done r' => cases hasks
  | ask q' m1 next ih =>
    cases hasks with
    | now =>
      refine ⟨h.1, fun {r a m''} hrun ha => ?_⟩
      rw [run_ask, ha] at hrun
      exact (h.2 a m'' (hanswers ha)).meets.of_asks (fun _ => hanswers) hrun
    | later ha hasks =>
      have hfirst := hanswers ha
      obtain ⟨hbefore, hafter⟩ := ih _ _ (h.2 _ _ hfirst) hasks
      refine ⟨Tolerant.trans h.1 (Tolerant.trans hfirst hbefore), fun {r a m''} hrun ha' => ?_⟩
      rw [run_ask, ha] at hrun
      exact hafter hrun ha'

end Dialogue

namespace Definitions

open Evaluation

variable (p : Program)

/-- Makes the function of a definition and keeps its type. -/
def makeFunction (n : NodeId) (flags : Flags FunctionFlag) : Evaluation (FunctionId × TypeId) := do
  let name := p.definitionName n
  let detail ← onStore (·.addFunction
    ⟨name, p.qualifiedName n name, p.moduleName, flags, [], none, some n⟩)
  let functionType ← onStore (·.addValue (.function detail none none))
  keepFunction n ⟨functionType, functionType⟩
  return (detail, functionType)

/-- Completes a function that has been made, and keeps what its decorators make of it. -/
def finishFunction (n : NodeId) (decorators parameters : List NodeId) (returnHint : Option NodeId)
    (owner : Option ClassId) (flags : Flags FunctionFlag) (made : FunctionId × TypeId) :
    Evaluation DefinitionTypes := do
  completeSignature p made.1 flags owner parameters returnHint
  let decorated ← (decorators.filterMap p.decoratorExpression?).reverse.foldlM
    (decorateFunction p made.1) made.2
  let decorated ← joined p n (p.definitionName n) decorated
  keepFunction n ⟨made.2, decorated⟩
  return ⟨made.2, decorated⟩

/-- A function definition is worked out by looking at its decorators, making the function, and
completing it. -/
theorem newFunction_eq (n : NodeId) (decorators : List NodeId) (isAsync : Bool)
    (parameters : List NodeId) (returnHint : Option NodeId) (owner : Option ClassId) :
    newFunction p n decorators isAsync parameters returnHint owner = (do
      let flags ← functionFlags p n (p.definitionName n) decorators isAsync owner
      let made ← makeFunction p n flags
      finishFunction p n decorators parameters returnHint owner flags made) := rfl

end Definitions

namespace Evaluation

open Definitions

variable {p : Program} {n : NodeId} {m m' : Memory} {R : Memory → Memory → Prop}

/-- The class around a function definition is all that is asked for to find it. -/
theorem classDef_of_asks_ownerOf {q : Query} (h : (ownerOf p n m).Asks p q m') :
    ∃ classNode, q = .classDef classNode := by
  unfold ownerOf at h
  cases hclass : p.enclosingClass? n with
  | none =>
    rw [hclass] at h
    cases h
  | some classNode =>
    rw [hclass] at h
    cases h with
    | now => exact ⟨classNode, rfl⟩
    | @later _ _ _ types _ _ _ _ h => cases types <;> cases h

/-- Making a function makes a record of it and keeps it, and asks nothing for that. -/
theorem makeFunction_eq (p : Program) (n : NodeId) (flags : Flags FunctionFlag) (m : Memory) :
    ∃ made m', makeFunction p n flags m = .done (made, m') ∧ (Query.function n).Makes m m' :=
  ⟨_, _, rfl, TypeStore.functionRecords_addFunction_self rfl m.store,
    congrArg Option.isSome List.lookup_cons_self⟩

/-- A function that is kept is completed as answers do. -/
theorem changes_finishFunction [Tolerant R]
    (hR : ∀ {m m'}, (Query.function n).Leaves m m' → R m m')
    (hkept : ∀ {m m'}, R m m' → (Query.function n).isKept m = true →
      (Query.function n).isKept m' = true)
    (hm : (Query.function n).isKept m = true) (decorators parameters : List NodeId)
    (returnHint : Option NodeId) (owner : Option ClassId) (flags : Flags FunctionFlag)
    (made : FunctionId × TypeId) :
    (finishFunction p n decorators parameters returnHint owner flags made m).ChangesBy R m := by
  refine Dialogue.ChangesBy.bind
    (changes_completeSignature p made.1 flags owner parameters returnHint m) fun _ m1 h1 => ?_
  refine Dialogue.ChangesBy.bind
    (ChangesBy.foldlM (changes_decorateFunction p made.1) made.2 _ m1) fun decorated m2 h2 => ?_
  refine Dialogue.ChangesBy.bind (changes_joined p n _ decorated m2) fun joined m3 h3 => ?_
  exact hR ⟨rfl, isSome_lookup_cons_self _ (hkept h3 (hkept h2 (hkept h1 hm)))⟩

/-- A function that has just been made gains when it is completed. -/
theorem gains_finishFunction {made : FunctionId × TypeId} {m₄ m₅ : Memory}
    (hmakes : (Query.function n).Makes m₄ m₅) (decorators parameters : List NodeId)
    (returnHint : Option NodeId) (owner : Option ClassId) (flags : Flags FunctionFlag) :
    (finishFunction p n decorators parameters returnHint owner flags made m₅).ChangesBy
      (Query.function n).Gains m₅ :=
  changes_finishFunction (fun h => h.balances.gains) (·.isKept) hmakes.isKept _ _ _ owner flags made

/-- The rule for a function definition gains. -/
theorem gains_function (n : NodeId) : ChangesBy (Query.function n).Gains (function p n) := by
  refine .get fun m => ?_
  split
  · exact .ret _
  · split
    · refine (changes_ownerOf p n).bind fun owner => .get fun m => ?_
      split
      · exact .ret _
      · refine ChangesBy.bind (fun m => ?_) fun types => .ret (some types)
        rw [newFunction_eq]
        refine Dialogue.ChangesBy.bind (changes_functionFlags p n _ _ _ owner m)
          fun flags m1 _ => ?_
        obtain ⟨made, m2, heq, hmakes⟩ := makeFunction_eq p n flags m1
        refine Dialogue.ChangesBy.head hmakes.gains ?_
        show ((makeFunction p n flags m1).bind fun r =>
          finishFunction p n _ _ _ owner flags r.1 r.2).ChangesBy _ m2
        rw [heq]
        exact gains_finishFunction hmakes _ _ _ _ _
    · exact .ret none

/-- The rules make at least as many records of a function as they newly keep. -/
theorem gains_rule (hn : p.isFunction n = true) (q : Query) :
    ChangesBy (Query.function n).Gains (q.rule p) := by
  by_cases hq : q = .function n
  · subst hq
    exact gains_function n
  · exact changes_of_ne (q := .function n) (fun h => h.balances.gains) hn hq

/-- A function definition of which nothing is kept is worked out by asking for the class around it,
which may have kept it, and else as a new function. -/
theorem function_eq {decorators parameters : List NodeId} {isAsync : Bool} {name suite : NodeId}
    {returnHint : Option NodeId}
    (hform : p.arena.form? n =
      some (.function decorators isAsync name parameters returnHint suite))
    (hfree : m.functions.lookup n = none) :
    function p n m = (ownerOf p n m).bind fun r =>
      match r.2.functions.lookup n with
      | some types => .done (some types, r.2)
      | none => (newFunction p n decorators isAsync parameters returnHint r.1 r.2).bind
          fun types => .done (some types.1, types.2) := by
  unfold function
  rw [Query.get_bind, hfree]
  dsimp only
  rw [hform]
  refine congrArg (Dialogue.bind (ownerOf p n m)) (funext fun r => ?_)
  dsimp only
  rw [Query.get_bind]
  cases r.2.functions.lookup n with
  | some types => rfl
  | none => rfl

end Evaluation

namespace Query

open Evaluation Definitions

variable {p : Program} {n : NodeId} {m m' : Memory}

/-- On the way to the answer to a question, the evaluation of a function definition asks for the
type of a decorator, and this leads back to the definition while nothing is kept of it. -/
def Reenters (p : Program) (n : NodeId) (a : State) : Prop :=
  ∃ m₁ e m₂ m₃, Reaches p a (.function n, m₁) ∧ e ∈ p.decoratorsOf n ∧
    Leads p (.function n, m₁) (.node e, m₂) ∧ Reaches p (.node e, m₂) (.function n, m₃) ∧
    m₃.functions.lookup n = none

/-- What a question leads to does not lead back to a function if the question does not. -/
theorem not_reenters_of_leads {a b : State} (h : ¬Reenters p n a) (hleads : Leads p a b) :
    ¬Reenters p n b :=
  fun ⟨m₁, e, m₂, m₃, hreaches, hrest⟩ => h ⟨m₁, e, m₂, m₃, .head hleads hreaches, hrest⟩

/-- A function of which something is kept has the same types, and nothing is changed. -/
theorem memory_eq_of_isKept (hm : (Query.function n).isKept m = true)
    {a : Option DefinitionTypes} (ha : (Query.function n).answer p m = some (a, m')) : m' = m := by
  obtain ⟨types, htypes⟩ := Option.isSome_iff_exists.1 hm
  rw [answer_function_of_kept htypes] at ha
  cases ha
  rfl

/-- An answer leaves a definition of a function if it does not lead to it while nothing is kept of
it. -/
theorem leaves_of_not_reaches (hn : p.isFunction n = true) {a : State} (hends : Ends p a)
    (hkept : ∀ m₃, Reaches p a (.function n, m₃) → (Query.function n).isKept m₃ = true)
    {r : a.1.Answer} (ha : a.1.answer p a.2 = some (r, m')) : (Query.function n).Leaves a.2 m' := by
  induction hends generalizing m' with
  | intro a _ ih =>
    obtain ⟨q, m⟩ := a
    -- On what the question leads to; a definition that is kept is not worked out again.
    by_cases hq : q = .function n
    · subst hq
      rw [memory_eq_of_isKept (hkept m .refl) ha]
      exact Tolerant.refl m
    · have hrule : ChangesBy (Query.function n).Leaves (q.rule p) :=
        changes_of_ne (q := .function n) (fun h => h) hn hq
      exact (hrule m).meets.of_asks (fun hasks ha' => ih (_, _) hasks
        (fun m₃ h => hkept m₃ (.head (b := (_, _)) hasks h)) ha') ha

/-- Looking at decorators leaves a definition if the answers about them do. -/
theorem leaves_functionFlags {answers : (q : Query) → Memory → q.Answer → Memory → Prop}
    {name : String} {decorators : List NodeId} {isAsync : Bool} {owner : Option ClassId}
    (hanswers : ∀ e ∈ decorators.filterMap p.decoratorExpression?, ∀ {m a m'},
      answers (.node e) m a m' → (Query.function n).Leaves m m') :
    Ensures answers m (functionFlags p n name decorators isAsync owner) fun _ m' =>
      (Query.function n).Leaves m m' := by
  have hmarks : ∀ (expressions : List NodeId), expressions ⊆
      decorators.filterMap p.decoratorExpression? → ∀ flags m,
      Ensures answers m (expressions.foldlM (markFunction p) flags) fun _ m' =>
        (Query.function n).Leaves m m' := by
    intro expressions
    induction expressions with
    | nil => exact fun _ flags m => .ret (Tolerant.refl m)
    | cons e es ih =>
      intro hsub flags m
      rw [List.foldlM_cons]
      have hmark : Ensures answers m (markFunction p flags e) fun _ m' =>
          (Query.function n).Leaves m m' :=
        (Ensures.ask.bind fun type m' h => .ret h).bind fun type m' h =>
          .store (.ret (hanswers e (hsub List.mem_cons_self) h))
      exact hmark.bind fun flags m' h => (ih (fun e he => hsub (List.mem_cons_of_mem _ he))
        flags m').weaken fun _ _ h' => Tolerant.trans h h'
  exact (hmarks _ (List.Subset.refl _) _ m).bind fun flags m' h => .ret h

/-- Completing a function definition of which nothing is kept makes a record of it and keeps it, if
the answers make as many records as they newly keep, and those about decorators leave it. -/
theorem balances_newFunction (hfree : m.functions.lookup n = none) {decorators : List NodeId}
    {answers : (q : Query) → Memory → q.Answer → Memory → Prop}
    (hanswers : ∀ {q m a m'}, answers q m a m' → (Query.function n).Balances m m')
    (hdecorators : ∀ e ∈ decorators.filterMap p.decoratorExpression?, ∀ {m a m'},
      answers (.node e) m a m' → (Query.function n).Leaves m m') (isAsync : Bool)
    (parameters : List NodeId) (returnHint : Option NodeId) (owner : Option ClassId) :
    Ensures answers m (newFunction p n decorators isAsync parameters returnHint owner) fun _ m' =>
      (Query.function n).Balances m m' := by
  rw [newFunction_eq]
  refine (leaves_functionFlags hdecorators).bind fun flags m1 h1 => ?_
  obtain ⟨made, m2, heq, hmakes⟩ := makeFunction_eq p n flags m1
  have hmakes' : (Query.function n).Balances m1 m2 :=
    hmakes.balances (h1.isKept.trans (congrArg Option.isSome hfree))
  have hfinish := (changes_finishFunction (p := p) Query.Leaves.balances Query.Balances.isKept
    hmakes.isKept decorators parameters returnHint owner flags made).meets
  show ((makeFunction p n flags m1).bind fun r =>
    finishFunction p n decorators parameters returnHint owner flags r.1 r.2).Meets _ _ _
  rw [heq]
  exact (hfinish.of_answers hanswers).weaken fun r h =>
    Tolerant.trans h1.balances (Tolerant.trans hmakes' h)

/-- The rule for a function definition makes as many records of it as it newly keeps, if the answers
do, and those about decorators leave it. -/
theorem balances_function {answers : (q : Query) → Memory → q.Answer → Memory → Prop}
    (hanswers : ∀ {q m a m'}, answers q m a m' → (Query.function n).Balances m m')
    (hdecorators : ∀ e ∈ p.decoratorsOf n, ∀ {m a m'},
      answers (.node e) m a m' → (Query.function n).Leaves m m') :
    Ensures answers m (Definitions.function p n) fun _ m' => (Query.function n).Balances m m' := by
  refine .get ?_
  split
  · exact .ret (Tolerant.refl m)
  · split
    · rename_i decorators _ _ _ _ _ hform
      rw [Program.decoratorsOf, hform] at hdecorators
      have howner : Ensures answers m (ownerOf p n) fun _ m' =>
          (Query.function n).Balances m m' :=
        (changes_ownerOf p n m).meets.of_answers hanswers
      refine howner.bind fun owner m1 h1 => .get ?_
      split
      · exact .ret h1
      · rename_i hfree
        exact (balances_newFunction hfree hanswers hdecorators _ _ _ owner).bind
          fun _ _ h => .ret (Tolerant.trans h1 h)
    · exact .ret (Tolerant.refl m)

/-- An answer makes as many records of a function definition as it newly keeps, unless it comes to a
decorator that leads back to the definition. -/
theorem balances_of_not_reenters (hn : p.isFunction n = true) {a : State} (hends : Ends p a)
    (hnot : ¬Reenters p n a) {r : a.1.Answer} (ha : a.1.answer p a.2 = some (r, m')) :
    (Query.function n).Balances a.2 m' := by
  induction hends generalizing m' with
  | intro a _ ih =>
    obtain ⟨q, m⟩ := a
    -- What the rule asks makes as many records as it newly keeps.
    have hasked : ∀ {q' : Query} {m₁ : Memory} {r : q'.Answer} {m₂ : Memory},
        Leads p (q, m) (q', m₁) → q'.answer p m₁ = some (r, m₂) →
        (Query.function n).Balances m₁ m₂ :=
      fun hleads ha' => ih (_, _) hleads (not_reenters_of_leads hnot hleads) ha'
    by_cases hq : q = .function n
    · subst hq
      have hrule : Ensures (fun q' m₁ r m₂ => Leads p (.function n, m) (q', m₁) ∧
          q'.answer p m₁ = some (r, m₂)) m (Definitions.function p n) fun _ m' =>
            (Query.function n).Balances m m' := by
        refine balances_function (fun h => hasked h.1 h.2) ?_
        rintro e he m₁ r m₂ ⟨hleads, ha'⟩
        have hends : Ends p (.node e, m₁) :=
          answer_isSome_iff_ends.1 (Option.isSome_of_eq_some ha')
        refine leaves_of_not_reaches hn hends (fun m₃ hreaches => ?_) ha'
        rw [isKept, Option.isSome_iff_ne_none]
        exact fun hfree => hnot ⟨m, e, m₁, m₃, .refl, he, hleads, hreaches, hfree⟩
      exact hrule.of_asks (fun hasks ha' => ⟨hasks, ha'⟩) ha
    · have hrule : ChangesBy (Query.function n).Balances (q.rule p) :=
        changes_of_ne (q := .function n) Query.Leaves.balances hn hq
      exact (hrule m).meets.of_asks hasked ha

/-- All answers gain. -/
theorem gains_of_answer (hn : p.isFunction n = true) {q : Query} {a : q.Answer}
    (ha : q.answer p m = some (a, m')) : (Query.function n).Gains m m' :=
  changes_of_answer (gains_rule hn) ha

/-- What an answer has led to has been answered, and both before and after that there are gains. -/
theorem gains_of_reaches (hn : p.isFunction n = true) {a b : State} (h : Reaches p a b)
    {r : a.1.Answer} (ha : a.1.answer p a.2 = some (r, m')) :
    ∃ r' m'', b.1.answer p b.2 = some (r', m'') ∧ (Query.function n).Gains a.2 b.2 ∧
      (Query.function n).Gains m'' m' := by
  induction h using Relation.ReflTransGen.head_induction_on generalizing m' with
  | refl => exact ⟨r, m', ha, Tolerant.refl _, Tolerant.refl _⟩
  | @head a c hleads _ ih =>
    cases hc : c.1.answer p c.2 with
    | none =>
      rw [hleads.answer_eq_none hc] at ha
      cases ha
    | some answered =>
      obtain ⟨hbefore, hafter⟩ := (gains_rule hn a.1 a.2).of_asks (gains_of_answer hn) hleads
      obtain ⟨r', m'', hb, hbefore', hafter'⟩ := ih hc
      exact ⟨r', m'', hb, Tolerant.trans hbefore hbefore',
        Tolerant.trans hafter' (hafter ha hc)⟩

/-- What an answer to a question for a function definition gives is kept. -/
theorem isKept_of_answer (hn : p.isFunction n = true) {a : Option DefinitionTypes}
    (ha : (Query.function n).answer p m = some (a, m')) : (Query.function n).isKept m' = true := by
  have hgiven : p.isFunction n = true → a.isSome :=
    Ensures.of_run (fun q _ => ensures_given q) (ensures_given (.function n)) ha
  have hkept := (Ensures.of_run remembers_rule (remembers_function n) ha).2
  exact (congrArg Option.isSome hkept).trans (hgiven hn)

/-- A new function that asks about a node while nothing is kept asks about a decorator; when it has
looked at these it makes a record. -/
theorem exists_makes_of_newFunction (hn : p.isFunction n = true)
    {decorators parameters : List NodeId} {isAsync : Bool} {returnHint : Option NodeId}
    {owner : Option ClassId} {e : NodeId} {m₂ m₃ : Memory}
    (hasks : (newFunction p n decorators isAsync parameters returnHint owner m).Asks p
      (.node e) m₂)
    (hm₂ : (Query.function n).isKept m₂ = false) {types : DefinitionTypes}
    (hrun : (newFunction p n decorators isAsync parameters returnHint owner m).run p =
      some (types, m')) {r : Option TypeId} (he : (Query.node e).answer p m₂ = some (r, m₃)) :
    ∃ m₄ m₅, (Query.function n).Gains m m₄ ∧ (Query.function n).Gains m₃ m₄ ∧
      (Query.function n).Makes m₄ m₅ ∧ (Query.function n).Gains m₅ m' := by
  have hanswers : ∀ {q : Query} {m : Memory} {a : q.Answer} {m' : Memory},
      q.answer p m = some (a, m') → (Query.function n).Gains m m' := gains_of_answer hn
  rw [newFunction_eq] at hasks hrun
  obtain ⟨⟨flags, m₄⟩, hflags, hmade⟩ :=
    Option.bind_eq_some_iff.1 (Dialogue.run_bind.symm.trans hrun)
  obtain ⟨made, m₅, heq, hmakes⟩ := makeFunction_eq p n flags m₄
  have hfinish : (finishFunction p n decorators parameters returnHint owner flags made m₅).ChangesBy
      (Query.function n).Gains m₅ := gains_finishFunction hmakes _ _ _ _ _
  have hlooks := changes_functionFlags (R := (Query.function n).Gains) p n (p.definitionName n)
    decorators isAsync owner m
  replace hmade : ((makeFunction p n flags m₄).bind fun made =>
    finishFunction p n decorators parameters returnHint owner flags made.1 made.2).run p =
      some (types, m') := hmade
  rw [heq] at hmade
  refine ⟨m₄, m₅, hlooks.meets.of_asks (fun _ => hanswers) hflags, ?_, hmakes,
    hfinish.meets.of_asks (fun _ => hanswers) hmade⟩
  rcases Dialogue.asks_bind_iff.1 hasks with hasks | ⟨r', hflags', hasks⟩
  · exact (hlooks.of_asks hanswers hasks).2 hflags he
  · -- When the function is completed it is kept.
    cases hflags.symm.trans hflags'
    replace hasks : ((makeFunction p n flags m₄).bind fun made =>
      finishFunction p n decorators parameters returnHint owner flags made.1 made.2).Asks p
        (.node e) m₂ := hasks
    rw [heq] at hasks
    have hkept := (hfinish.of_asks hanswers hasks).1
    rw [hkept.isKept hmakes.isKept] at hm₂
    cases hm₂

/-- The evaluation of a function definition that asks about a node while nothing is kept asks about
a decorator; when it has looked at these it makes a record. -/
theorem exists_makes_of_leads (hn : p.isFunction n = true) {e : NodeId} {m₂ m₃ : Memory}
    (hleads : Leads p (.function n, m) (.node e, m₂))
    (hm₂ : (Query.function n).isKept m₂ = false) {a : Option DefinitionTypes}
    (ha : (Query.function n).answer p m = some (a, m')) {r : Option TypeId}
    (he : (Query.node e).answer p m₂ = some (r, m₃)) :
    ∃ m₄ m₅, (Query.function n).Gains m m₄ ∧ (Query.function n).Gains m₃ m₄ ∧
      (Query.function n).Makes m₄ m₅ ∧ (Query.function n).Gains m₅ m' := by
  have hanswers : ∀ {q : Query} {m : Memory} {a : q.Answer} {m' : Memory},
      q.answer p m = some (a, m') → (Query.function n).Gains m m' := gains_of_answer hn
  have hfree : m.functions.lookup n = none := by
    have hm := (gains_rule hn (.function n) m).of_asks hanswers hleads
    exact Option.isNone_iff_eq_none.1 (Option.isSome_eq_false_iff.1 (hm.1.isKept_eq_false hm₂))
  obtain ⟨decorators, isAsync, name, parameters, returnHint, suite, hform⟩ :=
    form?_of_isFunction hn
  replace hleads : (Definitions.function p n m).Asks p (.node e) m₂ := hleads
  replace ha : (Definitions.function p n m).run p = some (a, m') := ha
  rw [function_eq hform hfree] at hleads ha
  rcases Dialogue.asks_bind_iff.1 hleads with howner | ⟨⟨owner, m₁⟩, howner, hrest⟩
  · obtain ⟨classNode, hclass⟩ := classDef_of_asks_ownerOf howner
    cases hclass
  rw [Dialogue.run_bind, howner, Option.bind_some] at ha
  dsimp only at hrest ha
  have hbefore : (Query.function n).Gains m m₁ :=
    (changes_ownerOf p n m).meets.of_asks (fun _ => hanswers) howner
  cases hfree₁ : m₁.functions.lookup n with
  | some types =>
    rw [hfree₁] at hrest
    cases hrest
  | none =>
    rw [hfree₁] at hrest ha
    rw [Dialogue.run_bind] at ha
    obtain ⟨⟨types, m''⟩, hnew, hdone⟩ := Option.bind_eq_some_iff.1 ha
    rw [Dialogue.run_done] at hdone
    cases hdone
    rcases Dialogue.asks_bind_iff.1 hrest with hasks | ⟨_, -, hasks⟩
    · obtain ⟨m₄, m₅, hstart, hrest⟩ := exists_makes_of_newFunction hn hasks hm₂ hnew he
      exact ⟨m₄, m₅, Tolerant.trans hbefore hstart, hrest⟩
    · cases hasks

/-- An answer on the way to which a decorator leads back to a function definition makes two records
of it at least, and keeps it. -/
theorem records_of_reenters (hn : p.isFunction n = true) {a : State} (h : Reenters p n a)
    {r : a.1.Answer} (ha : a.1.answer p a.2 = some (r, m')) :
    (Query.function n).records a.2.store + 2 ≤ (Query.function n).records m'.store ∧
      (Query.function n).isKept m' = true := by
  obtain ⟨m₁, e, m₂, m₃, hreaches, -, hleads, hback, hfree⟩ := h
  obtain ⟨types, m₁', hfunction, hbefore, hafter⟩ := gains_of_reaches hn hreaches ha
  obtain ⟨_, m₂', he, hbefore₁, -⟩ := gains_of_reaches hn (.single hleads) hfunction
  obtain ⟨_, m₃', hagain, hbefore₂, hafter₂⟩ := gains_of_reaches hn hback he
  have hm₂ : (Query.function n).isKept m₂ = false :=
    hbefore₂.isKept_eq_false (congrArg Option.isSome hfree)
  obtain ⟨m₄, m₅, hstart, hdecorator, hmakes, hend⟩ :=
    exists_makes_of_leads hn hleads hm₂ hfunction he
  -- The function is kept already when the decorators have been looked at.
  have hkept : (Query.function n).isKept m₄ = true :=
    hdecorator.isKept (hafter₂.isKept (isKept_of_answer hn hagain))
  have hfirst := hstart.records
  rw [hkept, hbefore₁.isKept_eq_false hm₂, Bool.toNat_true, Bool.toNat_false] at hfirst
  have hsecond := hmakes.records
  have hle : _ ≤ (Query.function n).records m₁.store := hbefore.records_le
  have hle' := (Tolerant.trans hend hafter : (Query.function n).Gains m₅ m').records_le
  exact ⟨by omega, hafter.isKept (hend.isKept hmakes.isKept)⟩

end Query

namespace Checker

/-- No class or function that is known beforehand has a definition. -/
theorem declaration_create :
    let s := (Builtins.create.run TypeStore.initial).2
    s.classes.all (·.declaration.isNone) = true ∧
      s.functions.all (·.declaration.isNone) = true := by
  decide +kernel

variable {file : SourceFile} {c c' : Checker} {n : NodeId} {q : Query}

/-- On the way to a checker, a decorator has led back to the function definition it belongs to. -/
def Reentered (file : SourceFile) (n : NodeId) (c : Checker) : Prop :=
  ∃ c₁ c₂ q a, Reached file c₁ ∧ q.In c₁.store ∧ c₁.ask? q = some (a, c₂) ∧
    Query.Reenters c₁.program n (q, c₁.memory) ∧ Later c₂ c

/-- A definition is no record's where no record has one. -/
theorem count_eq_zero_of_isNone {α : Type} {records : Array α} {declaration : α → Option NodeId}
    (h : records.all (fun r => (declaration r).isNone) = true) (n : NodeId) :
    (records.map declaration).count (some n) = 0 := by
  rw [Array.count_eq_zero, Array.mem_map]
  rintro ⟨r, hr, hdeclaration⟩
  have hnone := Array.all_eq_true'.1 h r hr
  rw [hdeclaration] at hnone
  cases hnone

/-- A checker that has not been asked has no records of definitions. -/
theorem records_checker (file : SourceFile) (q : Query) : q.records file.checker.store = 0 := by
  obtain ⟨b, s, hcreate, hstart⟩ := checker_eq file
  have hall := declaration_create
  rw [hcreate] at hall
  rw [hstart]
  cases q with
  | classDef n => exact count_eq_zero_of_isNone hall.1 n
  | function n => exact count_eq_zero_of_isNone hall.2 n
  | node n => exact count_eq_zero_of_isNone hall.2 n
  | _ => rfl

/-- A checker that has not been asked has kept nothing. -/
theorem isKept_checker (file : SourceFile) (q : Query) : q.isKept file.checker.memory = false := by
  obtain ⟨b, s, -, hstart⟩ := checker_eq file
  rw [hstart]
  cases q <;> rfl

/-- There are as many records of a definition as are kept if that stays so with all answers. -/
theorem Reached.records_eq (h : Reached file c)
    (hanswers : ∀ {q' : Query} {m a m'}, q'.answer c.program m = some (a, m') → q.Balances m m') :
    q.records c.store = (q.isKept c.memory).toNat := by
  induction h with
  | start =>
    rw [records_checker, isKept_checker]
    rfl
  | answered _ _ ha ih =>
    obtain ⟨hanswer, hprogram⟩ := ask?_eq_some ha
    rw [hprogram] at hanswers
    exact (hanswers hanswer).records_eq (ih hanswers)

/-- Unless a decorator has led back to it, there are as many records of a function definition as are
kept. -/
theorem Reached.records_eq_or_reentered (h : Reached file c)
    (hn : c.program.isFunction n = true) :
    c.Reentered file n ∨ (Query.function n).records c.store =
      ((Query.function n).isKept c.memory).toNat := by
  induction h with
  | start =>
    rw [records_checker, isKept_checker]
    exact .inr rfl
  | @answered c c' q a hc hq ha ih =>
    obtain ⟨hanswer, hprogram⟩ := ask?_eq_some ha
    rw [hprogram] at hn
    rcases ih hn with ⟨c₁, c₂, q', a', hc₁, hq', ha', hreenters, hlater⟩ | hbefore
    · exact .inl ⟨c₁, c₂, q', a', hc₁, hq', ha', hreenters, hlater.answered hq ha⟩
    by_cases hreenters : Query.Reenters c.program n (q, c.memory)
    · exact .inl ⟨c, c', q, a, hc, hq, ha, hreenters, .refl⟩
    · have hends : Query.Ends c.program (q, c.memory) :=
        Query.answer_isSome_iff_ends.1 (Option.isSome_of_eq_some hanswer)
      have hbalances := Query.balances_of_not_reenters hn hends hreenters hanswer
      exact .inr (hbalances.records_eq hbefore)

/-- Records stay later on. -/
theorem Later.gains (h : Later c c') (hn : c.program.isFunction n = true) :
    (Query.function n).Gains c.memory c'.memory := by
  induction h with
  | refl => exact Tolerant.refl _
  | answered h _ ha ih =>
    obtain ⟨hanswer, -⟩ := ask?_eq_some ha
    rw [h.remembers.1] at hanswer
    exact Tolerant.trans ih (Query.gains_of_answer hn hanswer)

/-- There are two records of a function definition at least if a decorator has led back to it. -/
theorem Reentered.two_le_records (h : c.Reentered file n) (hn : c.program.isFunction n = true) :
    2 ≤ c.store.functionRecords n := by
  obtain ⟨c₁, c₂, q, a, -, -, ha, hreenters, hlater⟩ := h
  obtain ⟨hanswer, hprogram⟩ := ask?_eq_some ha
  rw [hlater.remembers.1] at hn
  have hlast := (hlater.gains hn).records_le
  rw [hprogram] at hn
  have htwo := (Query.records_of_reenters hn hreenters hanswer).1
  exact Nat.le_trans (Nat.le_add_left 2 _) (Nat.le_trans htwo hlast)

/-- Of a class definition and of a function without a name there is one record at most, whatever a
checker for a file has been asked. So there is of a function definition, unless a decorator has led
back to it. -/
theorem records_le_one {name text : String} (h : Reached (SourceFile.ofText name text) c)
    (n : NodeId) :
    (c.program.isClass n = true → c.store.classRecords n ≤ 1) ∧
    (c.program.isLambda n = true → c.store.functionRecords n ≤ 1) ∧
    (c.program.isFunction n = true → (c.store.functionRecords n ≤ 1 ↔
      ¬c.Reentered (SourceFile.ofText name text) n)) := by
  refine ⟨fun hn => ?_, fun hn => ?_, fun hn => ⟨fun hle hreentered => ?_, fun hnot => ?_⟩⟩
  · have hrecords := h.records_eq (q := .classDef n) fun ha =>
      Evaluation.Ensures.of_run (Evaluation.balances_rule_of_isClass hn)
        (Evaluation.balances_rule_of_isClass hn _ _) ha
    exact Nat.le_trans (Nat.le_of_eq hrecords) (Bool.toNat_le _)
  · have hrecords := h.records_eq (q := .node n) fun ha =>
      Evaluation.Ensures.of_run (Evaluation.balances_rule_of_isLambda hn)
        (Evaluation.balances_rule_of_isLambda hn _ _) ha
    exact Nat.le_trans (Nat.le_of_eq hrecords) (Bool.toNat_le _)
  · exact absurd (Nat.le_trans (hreentered.two_le_records hn) hle) (by decide)
  · have hrecords := (h.records_eq_or_reentered hn).resolve_left hnot
    exact Nat.le_trans (Nat.le_of_eq hrecords) (Bool.toNat_le _)

/-- A checker that has been asked for a function definition whose decorator is the function itself.
There are two records of it, as the decorator has led back to it, but only one of the class and one
of the function without a name that are asked for on the way. -/
theorem records_le_one_decoratedByItself :
    let file := SourceFile.ofText "a.py" "class A: g = lambda: 0\n@f\ndef f(x=A): return x\n"
    ∃ t c, file.checker.functionOf? 18 = some (t, c) ∧ c.store.classRecords 7 ≤ 1 ∧
      c.store.functionRecords 3 ≤ 1 ∧ c.store.functionRecords 18 = 2 ∧ c.Reentered file 18 := by
  intro file
  have hkinds : file.checker.program.isClass 7 = true ∧
      file.checker.program.isLambda 3 = true ∧ file.checker.program.isFunction 18 = true := by
    decide +kernel
  have hrecords : (file.checker.askWithin? 12 (.function 18)).map
      (·.2.store.functionRecords 18) = some 2 := by decide +kernel
  obtain ⟨⟨t, c⟩, hwithin, hcount⟩ := Option.map_eq_some_iff.1 hrecords
  have htwo : c.store.functionRecords 18 = 2 := hcount
  have ha : file.checker.ask? (.function 18) = some (t, c) := ask?_eq_some_iff.2 ⟨12, hwithin⟩
  have hreached : Reached file c := .answered (q := .function 18) .start trivial ha
  rw [← (ask?_eq_some ha).2] at hkinds
  refine ⟨t, c, ha, (records_le_one hreached 7).1 hkinds.1,
    (records_le_one hreached 3).2.1 hkinds.2.1, htwo, ?_⟩
  by_contra hnot
  have hle := ((records_le_one hreached 18).2.2 hkinds.2.2).2 hnot
  rw [htwo] at hle
  exact absurd hle (by decide)

end Checker

end TypeProbe
