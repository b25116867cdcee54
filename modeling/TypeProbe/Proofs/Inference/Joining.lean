import TypeProbe.Proofs.Inference.Stacked

/-!
# How function definitions are joined

The rule for a function definition that is decorated with `overload` at most leads from an orderly
memory to one in which functions have been joined (`Evaluation.meets_function`), if the answers to
its questions do. The names of `overload` leave the function as it is, and mark it; then it is
joined to what is kept of the one before it (`DefinitionTypes.JoinedTo`). Functions after it that
are newly kept while it has its own type only have overtaken it (`Memory.Minds`).
-/

namespace TypeProbe

open Definitions TypeStore

namespace Evaluation

variable {p : Program} {cut : NodeId → Prop} {overtaken : NodeId → NodeId → Prop}
  {answers : (q : Query) → Memory → q.Answer → Memory → Prop} {m : Memory} {n e : NodeId}
  {d : Declaration}

/-- What is known of answers: they are the answers, functions are joined by them, and names of
`overload` are read and leave what is there. -/
structure Joining (p : Program) (cut : NodeId → Prop) (overtaken : NodeId → NodeId → Prop)
    (answers : (q : Query) → Memory → q.Answer → Memory → Prop) : Prop where
  /-- They are the answers. -/
  answer : ∀ {q m a m'}, answers q m a m' → q.answer p m = some (a, m')
  /-- Functions are joined. -/
  sustains : ∀ {q m a m'}, answers q m a m' → m.Sustains p cut overtaken m'
  /-- Names of `overload` are read. -/
  reads : ∀ {e d m a m'}, answers (.node e) m a m' → p.NamesOverload e d → m.Orderly p cut →
    (∃ t, a = some t ∧ p.Reads cut e t) ∧ m'.store = m.store ∧ m'.functions = m.functions

/-- A name of `overload` may be asked for. -/
theorem ensures_overloadName (hanswers : Joining p cut overtaken answers) (hm : m.Orderly p cut)
    (h : p.NamesOverload e d) :
    Ensures answers m (typeOf e) fun t m' => p.Reads cut e t ∧ Memory.Rests p cut m m' := by
  refine Ensures.ask.bind fun a m' ha => .ret ?_
  obtain ⟨⟨t, rfl, ht⟩, hstore, hfunctions⟩ := hanswers.reads ha h hm
  exact ⟨ht, (hanswers.sustains ha hm).toOrderly, hstore, hfunctions⟩

/-- A decorator that is the name of `overload` marks a function as an overload, unless its
evaluation has been cut off. -/
theorem ensures_markFunction (hanswers : Joining p cut overtaken answers) (hm : m.Orderly p cut)
    (h : p.NamesOverload e d) (flags : Flags FunctionFlag) :
    Ensures answers m (markFunction p flags e) fun flags' m' =>
      (flags.has .overloaded = true → flags'.has .overloaded = true) ∧
      (flags'.has .overloaded = false → cut e) ∧ Memory.Rests p cut m m' := by
  unfold markFunction
  extract_lets b
  refine (ensures_overloadName hanswers hm h).bind fun t m' ⟨ht, hrests⟩ => .store ?_
  extract_lets flags₁
  have hflags₁ : flags₁.has .overloaded = flags.has .overloaded := by
    dsimp only [flags₁]
    split
    · exact Flags.has_insert_of_ne _ (by decide)
    · split
      · exact Flags.has_insert_of_ne _ (by decide)
      · rfl
  have hinsert : ∀ flag, flags₁.has .overloaded = true →
      (flags₁.insert flag).has .overloaded = true := by
    intro flag hflag
    rw [Flags.has_insert, hflag, Bool.true_or]
  rcases ht with hmarker | ⟨-, hcut⟩
  · rw [hmarker]
    have hself : (flags₁.insert .overloaded).has .overloaded = true := by
      rw [Flags.has_insert, decide_eq_true rfl, Bool.or_true]
    exact .ret ⟨fun _ => hself, fun hnot => absurd (hself.symm.trans hnot) nofun, hrests⟩
  · refine .ret ⟨fun hflag => ?_, fun _ => hcut, hrests⟩
    split
    · exact hinsert _ (hflags₁.trans hflag)
    · exact hflags₁.trans hflag

/-- Decorators that are names of `overload` mark a function as an overload, unless the evaluation of
all of them has been cut off. -/
theorem ensures_markFunctions (hanswers : Joining p cut overtaken answers) {es : List NodeId}
    (hnames : ∀ e ∈ es, ∃ d, p.NamesOverload e d) (flags : Flags FunctionFlag)
    (hm : m.Orderly p cut) :
    Ensures answers m (es.foldlM (markFunction p) flags) fun flags' m' =>
      (flags.has .overloaded = true → flags'.has .overloaded = true) ∧
      (es = [] → flags' = flags) ∧
      (flags'.has .overloaded = false → ∀ e ∈ es, cut e) ∧ Memory.Rests p cut m m' := by
  induction es generalizing flags m with
  | nil => exact .ret ⟨id, fun _ => rfl, nofun, hm, rfl, rfl⟩
  | cons e es ih =>
    obtain ⟨⟨d, hd⟩, hes⟩ := List.forall_mem_cons.1 hnames
    rw [List.foldlM_cons]
    refine (ensures_markFunction hanswers hm hd flags).bind fun flags₁ m₁ ⟨hmark, hcut, h₁⟩ => ?_
    refine (ih hes flags₁ h₁.toOrderly).weaken fun flags₂ m₂ ⟨hmark', _, hcut', h₂⟩ => ?_
    refine ⟨fun h => hmark' (hmark h), nofun, fun hnot => ?_, h₁.trans h₂⟩
    -- What is not marked in the end has not been marked by the first one either.
    refine List.forall_mem_cons.2 ⟨hcut ?_, hcut' hnot⟩
    exact eq_false_of_ne_true fun h => absurd ((hmark' h).symm.trans hnot) nofun

/-- The properties of a function that is decorated with `overload` at most: it is an overload if a
decorator says so, and only cut off decorators do not. -/
theorem ensures_functionFlags (hanswers : Joining p cut overtaken answers) (hm : m.Orderly p cut)
    {decorators : List NodeId}
    (hnames : ∀ e ∈ decorators.filterMap p.decoratorExpression?, ∃ d, p.NamesOverload e d)
    (name : String) (isAsync : Bool) (owner : Option ClassId) :
    Ensures answers m (functionFlags p n name decorators isAsync owner) fun flags m' =>
      (flags.has .overloaded = true → decorators.filterMap p.decoratorExpression? ≠ []) ∧
      (flags.has .overloaded = false →
        ∀ e ∈ decorators.filterMap p.decoratorExpression?, cut e) ∧
      Memory.Rests p cut m m' := by
  refine (ensures_markFunctions hanswers hnames Flags.empty hm).bind
    fun flags m' ⟨_, hnil, hcut, hrests⟩ => ?_
  have hmark : ∀ flags' : Flags FunctionFlag,
      flags'.has .overloaded = flags.has .overloaded →
      (flags'.has .overloaded = true → decorators.filterMap p.decoratorExpression? ≠ []) ∧
      (flags'.has .overloaded = false →
        ∀ e ∈ decorators.filterMap p.decoratorExpression?, cut e) ∧ Memory.Rests p cut m m' := by
    intro flags' hflags'
    rw [hflags']
    refine ⟨fun htrue hes => ?_, hcut, hrests⟩
    rw [hnil hes, Flags.has_empty] at htrue
    cases htrue
  -- None of the other properties is that of an overload.
  extract_lets flags₁ flags₂
  have hflags₁ : flags₁.has .overloaded = flags.has .overloaded := by
    dsimp only [flags₁]
    split
    · exact Flags.has_insert_of_ne _ (by decide)
    · rfl
  have hflags₂ : flags₂.has .overloaded = flags.has .overloaded := by
    refine Eq.trans ?_ hflags₁
    dsimp only [flags₂]
    split
    · exact Flags.has_insert_of_ne _ (by decide)
    · rfl
  refine .ret (hmark _ ?_)
  split
  · rename_i flag hflag
    refine (Flags.has_insert_of_ne _ ?_).trans hflags₂
    -- A method has other properties by its name.
    have hmethod : methodMark? name = some flag := by
      split at hflag
      · exact hflag
      · cases hflag
    unfold methodMark? at hmethod
    split at hmethod
    · cases hmethod
      decide
    · split at hmethod
      · cases hmethod
        decide
      · cases hmethod
  · exact hflags₂

/-- A name of `overload` is taken for no class. -/
theorem isClassObject_of_reads (hbuiltins : p.builtins = Builtins.foreknown.1)
    (hm : m.Reads p cut) {t : TypeId} (ht : p.Reads cut e t) (c : ClassId) :
    m.store.isClassObject t c = false := by
  have hshape : ∃ shape, m.store.shape? t = some shape ∧ ∀ detail arguments literal,
      shape ≠ .nominal detail arguments literal := by
    rcases ht with hmarker | ⟨rfl, -⟩
    · obtain ⟨entry, hentry, -⟩ := Option.map_eq_some_iff.1 hmarker
      have hmark := List.all_eq_true.1 Builtins.markers_foreknown entry
        (hbuiltins ▸ List.mem_of_find?_eq_some hentry)
      obtain ⟨b, hmark⟩ := Option.isSome_iff_exists.1 hmark
      have hsame := List.find?_some hentry
      obtain rfl : entry.2 = t := eq_of_beq hsame
      obtain ⟨detail, bound, arguments, hshape⟩ :=
        TypeStore.shape?_of_mark? (hm.foreknows.mark? hmark)
      exact ⟨_, hshape, nofun⟩
    · exact ⟨_, hm.foreknows.shape? (shape?_of_get? get?_foreknown.2.1), nofun⟩
  obtain ⟨shape, hshape, hnominal⟩ := hshape
  obtain ⟨record, hrecord, rfl⟩ := Option.map_eq_some_iff.1 hshape
  have hclass : record.class? = none := by
    unfold TypeRecord.class?
    split
    · exact absurd ‹_› (hnominal _ _ _)
    · rfl
  rw [isClassObject, hrecord]
  dsimp only
  rw [hclass]
  exact Bool.and_false _

/-- A decorator that is the name of `overload` leaves a function as it is. -/
theorem ensures_decorateFunction (hbuiltins : p.builtins = Builtins.foreknown.1)
    (hanswers : Joining p cut overtaken answers) (hm : m.Orderly p cut)
    (h : p.NamesOverload e d) (detail : FunctionId) (decorated : TypeId) :
    Ensures answers m (decorateFunction p detail decorated e) fun t m' =>
      t = decorated ∧ Memory.Rests p cut m m' := by
  unfold decorateFunction
  extract_lets b
  refine (ensures_overloadName hanswers hm h).bind fun t m' ⟨ht, hrests⟩ => .store ?_
  have hclass := isClassObject_of_reads hbuiltins hrests.toReads ht
  have haccessor : accessorOwner? p e = pure none := by
    obtain ⟨token, hform⟩ := h.form
    unfold accessorOwner?
    rw [hform]
  rw [if_neg (by rw [hclass]; exact Bool.false_ne_true), haccessor, pure_bind]
  refine .store ?_
  rw [hclass, hclass]
  split
  · exact .ret ⟨rfl, hrests⟩
  · rename_i hmarker
    rcases ht with hoverload | ⟨rfl, -⟩
    · rw [hoverload] at hmarker
      exact absurd rfl hmarker
    · -- Nothing is known of what a cut off decorator makes of the function.
      refine Ensures.ask.bind fun result m'' ha => .store (.ret ?_)
      have hshape : m'.store.shape? .incomplete = some (.unknown true) :=
        hrests.foreknows.shape? (shape?_of_get? get?_foreknown.2.1)
      obtain ⟨rfl, rfl⟩ := Prod.mk.inj (Option.some.inj
        ((answer_call_of_shape? hshape [decorated]).symm.trans (hanswers.answer ha)))
      have hunknown : m'.store.isUnknown .unknown = true := by
        rw [isUnknown, hrests.foreknows.shape? (shape?_of_get? get?_foreknown.1)]
      exact ⟨if_pos hunknown, hrests⟩

/-- Decorators that are names of `overload` leave a function as it is. -/
theorem ensures_decorators (hbuiltins : p.builtins = Builtins.foreknown.1)
    (hanswers : Joining p cut overtaken answers) {es : List NodeId}
    (hnames : ∀ e ∈ es, ∃ d, p.NamesOverload e d) (detail : FunctionId) (decorated : TypeId)
    (hm : m.Orderly p cut) :
    Ensures answers m (es.foldlM (decorateFunction p detail) decorated) fun t m' =>
      t = decorated ∧ Memory.Rests p cut m m' := by
  induction es generalizing m with
  | nil => exact .ret ⟨rfl, hm, rfl, rfl⟩
  | cons e es ih =>
    obtain ⟨⟨d, hd⟩, hnames⟩ := List.forall_mem_cons.1 hnames
    rw [List.foldlM_cons]
    refine (ensures_decorateFunction hbuiltins hanswers hm hd detail decorated).bind ?_
    rintro _ m₁ ⟨rfl, h₁⟩
    exact (ih hnames h₁.toOrderly).weaken fun t m₂ ⟨ht, h₂⟩ => ⟨ht, h₁.trans h₂⟩

/-- What is answered for a function definition is kept of it. -/
theorem lookup_of_answer_function (hn : p.isFunction n = true) {a : Option DefinitionTypes}
    {m' : Memory} (ha : (Query.function n).answer p m = some (a, m')) :
    ∃ t, a = some t ∧ m'.functions.lookup n = some t := by
  have hgiven : p.isFunction n = true → a.isSome :=
    Ensures.of_run (fun q _ => ensures_given q) (ensures_given (.function n)) ha
  have hkept := (Ensures.of_run remembers_rule (remembers_function n) ha).2
  obtain ⟨t, rfl⟩ := Option.isSome_iff_exists.1 (hgiven hn)
  exact ⟨t, rfl, hkept⟩

/-- The overloads before a function are those that what is kept of the one before it brings. -/
theorem previousOverloads?_eq {name : String} {d : Declaration}
    (h : (previousDeclaration? p n name).filter (·.kind == .function) = some d) :
    previousOverloads? p n name = (do
      let found ← ask (.function d.node)
      let s ← store
      return found.bind fun types => s.overloads? types.decorated) := by
  unfold previousOverloads?
  rw [h]
  dsimp only
  refine congrArg (_ >>= ·) (funext fun found => ?_)
  cases found with
  | none => rfl
  | some types =>
    refine congrArg (_ >>= ·) (funext fun s => ?_)
    dsimp only [Option.bind_some]
    unfold TypeStore.overloads?
    cases s.shape? types.decorated with
    | none => rfl
    | some shape =>
      cases shape with
      | _ => rfl

/-- A function is joined to what is kept of the one before it, if that is an overload. -/
theorem ensures_joined (hanswers : Joining p cut overtaken answers) (hm : m.Orderly p cut)
    (hn : p.Stacked n) {n' : NodeId} (hn' : p.previousFunction? n = some n') (defined : TypeId) :
    Ensures answers m (joined p n (p.definitionName n) defined) fun decorated m' =>
      ∃ t', m'.functions.lookup n' = some t' ∧
        t'.JoinedTo (overtaken n' n) ⟨defined, decorated⟩ m'.store := by
  obtain ⟨declaration, hdeclaration, rfl⟩ := Option.map_eq_some_iff.1 hn'
  have hn' := hn.previous hn'
  unfold joined
  rw [previousOverloads?_eq hdeclaration, bind_assoc]
  refine Ensures.ask.bind fun a m₁ ha => ?_
  have hjoins := hanswers.sustains ha hm
  obtain ⟨t', rfl, ht'⟩ := lookup_of_answer_function hn'.isFunction (hanswers.answer ha)
  have hformed := hjoins.formed _ hn' t' ht'
  obtain ⟨b, hmark⟩ := Option.isSome_iff_exists.1 hformed.mark
  have hbrings : Ensures answers m₁ (do
      let s ← store
      return (some t').bind fun types => s.overloads? types.decorated) fun found m₂ =>
        m₂ = m₁ ∧ found = if b then some (m₁.store.combined t'.decorated) else none :=
    .store (.ret ⟨rfl, hformed.overloads?_eq hmark⟩)
  refine hbrings.bind ?_
  rintro _ _ ⟨hmemory, hfound⟩
  rw [hmemory, hfound]
  cases b with
  | false => exact .ret ⟨t', ht', .inl ⟨hmark, rfl⟩⟩
  | true =>
    -- The overloads that the one before it brings stay what they are when they are combined.
    refine Ensures.onStore.weaken ?_
    rintro _ _ ⟨rfl, rfl⟩
    have hstays : m₁.store.Stays (m₁.store.addValue
        (.overloaded (m₁.store.combined t'.decorated ++ [defined]))).2 :=
      .of_keeps (keeping_add _ m₁.store).toKeeps
    refine ⟨t', ht', .inr ⟨hstays.mark? hmark, (hformed.mono hstays).decorated, .inl ?_⟩⟩
    rw [hstays.combined_eq hformed.decorated]
    have hget : ∀ shape, (m₁.store.addValue shape).2.get? (m₁.store.addValue shape).1 =
        some ⟨valueFlags, shape⟩ := fun _ => Array.getElem?_push_size
    exact shape?_of_get? (hget _)

section Keeping

variable {m₃ m₇ : Memory} {defined decorated : TypeId}

/-- A memory stays orderly when the own type of a function is kept. -/
theorem orderly_of_own (hm : m.Orderly p cut) (hstays : m.store.Stays m₃.store) {b : Bool}
    (hfunctions : m₃.functions = (n, ⟨defined, defined⟩) :: m.functions)
    (hmark : m₃.store.mark? defined = some b)
    (hnodes : m₃.nodeTypes = m.nodeTypes)
    (hdeclarations : m₃.declarationTypes = m.declarationTypes) : m₃.Orderly p cut := by
  refine ⟨hm.toReads.mono hstays hdeclarations hnodes, fun k hk t ht => ?_⟩
  rw [hfunctions] at ht
  by_cases heq : k = n
  · subst heq
    cases List.lookup_cons_self.symm.trans ht
    refine ⟨Option.isSome_of_eq_some hmark, isSome_get?_of_mark? hmark, ?_⟩
    rw [combined_of_mark? hmark]
    rfl
  · rw [lookup_cons_of_ne heq] at ht
    exact (hm.formed k hk t ht).mono hstays

/-- When a function is complete, all functions are joined that have been kept since it was made, and
so is the function itself. -/
theorem joins_keepFunction (hm : m.Orderly p cut) (hfree : m.functions.lookup n = none)
    (hn : p.Stacked n) (hfunctions : m₃.functions = (n, ⟨defined, defined⟩) :: m.functions)
    (hstays : m.store.Stays m₃.store)
    (hcore : ∃ b, m₃.store.core? defined = some ⟨some n, b⟩ ∧
      (b = true → p.decoratorsOf n ≠ []) ∧ (b = false → ∀ e ∈ p.decoratorsOf n, cut e))
    (hjoins : m₃.Joins p cut overtaken m₇)
    (hlate : ∀ k, p.Stacked k → p.previousFunction? k = some n → m₃.functions.lookup k = none →
      m₇.functions.lookup k ≠ none → overtaken n k)
    (hfirst : p.previousFunction? n = none → decorated = defined)
    (hnext : ∀ n', p.previousFunction? n = some n' → ∃ t', m₇.functions.lookup n' = some t' ∧
      t'.JoinedTo (overtaken n' n) ⟨defined, decorated⟩ m₇.store) :
    m.Joins p cut overtaken
      { m₇ with functions := (n, ⟨defined, decorated⟩) :: m₇.functions } := by
  have hkept : m₇.functions.lookup n = some ⟨defined, defined⟩ :=
    hjoins.functions n hn _ (hfunctions ▸ List.lookup_cons_self)
  have hother : ∀ {k : NodeId}, k ≠ n →
      List.lookup k ((n, ⟨defined, decorated⟩) :: m₇.functions) = m₇.functions.lookup k :=
    fun hk => lookup_cons_of_ne hk _ _
  have hbefore : ∀ {k : NodeId}, k ≠ n → m₃.functions.lookup k = m.functions.lookup k :=
    fun hk => hfunctions ▸ lookup_cons_of_ne hk _ _
  have hholds : m.Holds p { m₇ with functions := (n, ⟨defined, decorated⟩) :: m₇.functions } := by
    refine ⟨hstays.trans hjoins.store, fun k hk t ht => ?_⟩
    have hne : k ≠ n := by
      rintro rfl
      cases hfree.symm.trans ht
    exact (hother hne).trans (hjoins.functions k hk t ((hbefore hne).trans ht))
  obtain ⟨b, hcore₃, hb⟩ := hcore
  have hcore₇ := hjoins.store.core? hcore₃
  have hdefined : (m₇.store.get? defined).isSome := by
    refine isSome_get?_of_mark? (b := b) ?_
    rw [TypeStore.mark?, hcore₇]
    rfl
  have hdecorated : (m₇.store.get? decorated).isSome := by
    cases hprevious : p.previousFunction? n with
    | none => exact (hfirst hprevious).symm ▸ hdefined
    | some n' =>
      obtain ⟨t', -, hjoined⟩ := hnext n' hprevious
      exact hjoined.isSome_get? hdefined
  -- Of the others only those after it are joined to what is kept of it, and that has changed.
  have hjoined : ∀ k, p.Stacked k → m.functions.lookup k = none → ∀ t,
      List.lookup k ((n, ⟨defined, decorated⟩) :: m₇.functions) = some t →
      Memory.Joined p cut overtaken
        { m₇ with functions := (n, ⟨defined, decorated⟩) :: m₇.functions } k t := by
    intro k hk hnew t ht
    by_cases heq : k = n
    · subst heq
      cases List.lookup_cons_self.symm.trans ht
      refine ⟨⟨b, hcore₇, hb⟩, hdecorated, hfirst, fun n' hn' => ?_⟩
      obtain ⟨t', ht', hjoined⟩ := hnext n' hn'
      exact ⟨t', (hother (hn.previous_ne hn')).trans ht', hjoined⟩
    · have hfree₃ := (hbefore heq).trans hnew
      have hkept₇ := (hother heq).symm.trans ht
      have hjoined := hjoins.joined k hk hfree₃ t hkept₇
      refine ⟨hjoined.core, hjoined.decorated, hjoined.first, fun k' hk' => ?_⟩
      obtain ⟨t', ht', hto⟩ := hjoined.next k' hk'
      by_cases heq' : k' = n
      · -- It has been met while the function had its own type only.
        subst heq'
        cases hkept.symm.trans ht'
        have hovertaken := hlate k hk hk' hfree₃ (hkept₇ ▸ Option.some_ne_none t)
        exact ⟨_, List.lookup_cons_self, hto.overtakes hovertaken hdecorated⟩
      · exact ⟨t', (hother heq').trans ht', hto⟩
  exact { hholds, hjoins.toReads.mono (.refl _) rfl rfl with
    formed := hm.formed_of_joined hholds hjoined
    joined := hjoined }

end Keeping

/-- When a function is made, its own type is kept of it. -/
theorem exists_makeFunction (p : Program) (n : NodeId) (flags : Flags FunctionFlag) (m : Memory) :
    ∃ detail type m', makeFunction p n flags m = .done ((detail, type), m') ∧
      m'.functions = (n, ⟨type, type⟩) :: m.functions ∧ m.store.Stays m'.store ∧
      m'.store.core? type = some ⟨some n, flags.has .overloaded⟩ ∧
      m'.nodeTypes = m.nodeTypes ∧ m'.declarationTypes = m.declarationTypes := by
  refine ⟨_, _, _, rfl, rfl, (Stays.addFunction _ _).trans (.of_keeps (keeping_add _ _).toKeeps),
    ?_, rfl, rfl⟩
  have hfunction : ∀ (s : TypeStore) f, ((s.addFunction f).2.add
      ⟨valueFlags, .function (s.addFunction f).1 none none⟩).2.functionOf?
        ⟨(s.addFunction f).2.types.size⟩ = some f := by
    intro s f
    have hget : ((s.addFunction f).2.add
        ⟨valueFlags, .function (s.addFunction f).1 none none⟩).2.get?
        ⟨(s.addFunction f).2.types.size⟩ =
          some ⟨valueFlags, .function (s.addFunction f).1 none none⟩ := Array.getElem?_push_size
    rw [functionOf?, hget]
    exact Array.getElem?_push_size
  exact congrArg (Option.map FunctionDetail.core) (hfunction _ _)

/-- What changes the memory as answers do asks its questions of orderly memories. -/
theorem meets_of_changes {α : Type} (hanswers : Joining p cut overtaken answers)
    (hm : m.Orderly p cut) {dialogue : Dialogue (α × Memory)}
    (h : dialogue.ChangesBy (Memory.Sustains p cut overtaken) m) :
    dialogue.Meets (fun _ m' => m'.Orderly p cut) answers fun r => m.Joins p cut overtaken r.2 :=
  (h.meets_asks.of_answers hanswers.sustains).imp (fun _ _ h => (h hm).toOrderly) fun _ h => h hm

/-- Nothing is done to join a function that has none before it. -/
theorem joined_of_first (h : p.previousFunction? n = none) (decorated : TypeId) :
    joined p n (p.definitionName n) decorated = pure decorated := by
  unfold joined previousOverloads?
  rw [Option.map_eq_none_iff.1 h]
  rfl

/-- What the decorators of a function, and the one before it, make of it. -/
def joinedFunction (p : Program) (n : NodeId) (decorators parameters : List NodeId)
    (returnHint : Option NodeId) (owner : Option ClassId) (flags : Flags FunctionFlag)
    (made : FunctionId × TypeId) : Evaluation TypeId := do
  completeSignature p made.1 flags owner parameters returnHint
  let decorated ← (decorators.filterMap p.decoratorExpression?).reverse.foldlM
    (decorateFunction p made.1) made.2
  joined p n (p.definitionName n) decorated

/-- A function that has been made is completed by keeping what it is joined to. -/
theorem finishFunction_eq (decorators parameters : List NodeId) (returnHint : Option NodeId)
    (owner : Option ClassId) (flags : Flags FunctionFlag) (made : FunctionId × TypeId) :
    finishFunction p n decorators parameters returnHint owner flags made = (do
      let decorated ← joinedFunction p n decorators parameters returnHint owner flags made
      keepFunction n ⟨made.2, decorated⟩
      return ⟨made.2, decorated⟩) := by
  simp only [finishFunction, joinedFunction, bind_assoc]

/-- Function definitions are joined as answers do. -/
theorem changes_joinedFunction {R : Memory → Memory → Prop} [Tolerant R]
    (decorators parameters : List NodeId) (returnHint : Option NodeId) (owner : Option ClassId)
    (flags : Flags FunctionFlag) (made : FunctionId × TypeId) :
    ChangesBy R (joinedFunction p n decorators parameters returnHint owner flags made) :=
  (changes_completeSignature p made.1 flags owner parameters returnHint).bind fun _ =>
    (ChangesBy.foldlM (changes_decorateFunction p made.1) made.2 _).bind fun decorated =>
      changes_joined p n _ decorated

section Rule

variable (hbuiltins : p.builtins = Builtins.foreknown.1)
  (hanswers : Joining p cut overtaken answers)
  (hminds : ∀ {q m a m'}, answers q m a m' → Memory.Minds p overtaken n m m') (hn : p.Stacked n)

include hbuiltins hanswers hn

/-- A function that has been made is joined to what is kept of the one before it. -/
theorem ensures_joinedFunction (hm : m.Orderly p cut) {decorators : List NodeId}
    (hdecorators : p.decoratorsOf n = decorators.filterMap p.decoratorExpression?)
    (parameters : List NodeId) (returnHint : Option NodeId) (owner : Option ClassId)
    (flags : Flags FunctionFlag) (made : FunctionId × TypeId) :
    Ensures answers m (joinedFunction p n decorators parameters returnHint owner flags made)
      fun decorated m' =>
        (p.previousFunction? n = none → decorated = made.2) ∧
        ∀ n', p.previousFunction? n = some n' → ∃ t', m'.functions.lookup n' = some t' ∧
          t'.JoinedTo (overtaken n' n) ⟨made.2, decorated⟩ m'.store := by
  have hsignature : Ensures answers m (completeSignature p made.1 flags owner parameters returnHint)
      fun _ m' => m.Joins p cut overtaken m' :=
    (meets_of_changes hanswers hm (changes_completeSignature p made.1 flags owner parameters
      returnHint m)).imp (fun _ _ _ => trivial) fun _ h => h
  have hnames : ∀ e ∈ (decorators.filterMap p.decoratorExpression?).reverse,
      ∃ d, p.NamesOverload e d := fun e he => hn.names e (hdecorators ▸ List.mem_reverse.1 he)
  refine hsignature.bind fun _ m₁ h₁ => ?_
  refine (ensures_decorators hbuiltins hanswers hnames made.1 made.2 h₁.toOrderly).bind ?_
  rintro decorated m₂ ⟨hdecorated, hrests⟩
  rw [hdecorated]
  cases hprevious : p.previousFunction? n with
  | none =>
    rw [joined_of_first hprevious]
    exact .ret ⟨fun _ => rfl, nofun⟩
  | some n' =>
    refine (ensures_joined hanswers hrests.toOrderly hn hprevious made.2).weaken fun t m₃ h => ?_
    refine ⟨nofun, fun _ heq => ?_⟩
    cases heq
    exact h

include hminds

/-- A new function that is decorated with `overload` at most is joined. -/
theorem meets_newFunction (hm : m.Orderly p cut) (hfree : m.functions.lookup n = none)
    {decorators : List NodeId}
    (hdecorators : p.decoratorsOf n = decorators.filterMap p.decoratorExpression?) (isAsync : Bool)
    (parameters : List NodeId) (returnHint : Option NodeId) (owner : Option ClassId) :
    (newFunction p n decorators isAsync parameters returnHint owner m).Meets
      (fun _ m' => m'.Orderly p cut) answers fun r => m.Joins p cut overtaken r.2 := by
  have hnames := hn.names
  rw [hdecorators] at hnames
  rw [newFunction_eq]
  refine Dialogue.Meets.bind ((meets_of_changes hanswers hm (changes_functionFlags p n _ decorators
    isAsync owner m)).and_ensures (ensures_functionFlags hanswers hm hnames _ isAsync owner)) ?_
  rintro ⟨flags, m₂⟩ ⟨-, htrue, hfalse, hrests⟩
  rw [← hdecorators] at htrue hfalse
  obtain ⟨detail, defined, m₃, hmake, hfunctions, hstays, hcore, hnodes, hdeclarations⟩ :=
    exists_makeFunction p n flags m₂
  show ((makeFunction p n flags m₂).bind fun r =>
    finishFunction p n decorators parameters returnHint owner flags r.1 r.2).Meets _ _ _
  rw [hmake]
  have hmark : m₃.store.mark? defined = some (flags.has .overloaded) := by
    rw [TypeStore.mark?, hcore]
    rfl
  have hfree₂ : m₂.functions.lookup n = none := hrests.functions ▸ hfree
  have hkept : m₃.functions.lookup n = some ⟨defined, defined⟩ :=
    hfunctions ▸ List.lookup_cons_self
  have hm₃ : m₃.Orderly p cut :=
    orderly_of_own hrests.toOrderly hstays hfunctions hmark hnodes hdeclarations
  -- While the function is completed, functions after it are kept only if they overtake it.
  have hchanges : ∀ {R : Memory → Memory → Prop} [Tolerant R],
      (joinedFunction p n decorators parameters returnHint owner flags (detail, defined)
        m₃).ChangesBy R m₃ :=
    changes_joinedFunction decorators parameters returnHint owner flags _ m₃
  have hlate : (joinedFunction p n decorators parameters returnHint owner flags (detail, defined)
      m₃).Meets (fun _ _ => True) answers fun r => Memory.Minds p overtaken n m₃ r.2 :=
    (Dialogue.ChangesBy.meets hchanges).of_answers hminds
  have hcompleted := ((meets_of_changes hanswers hm₃ hchanges).and_ensures hlate).and_ensures
    (ensures_joinedFunction hbuiltins hanswers hn hm₃ hdecorators parameters returnHint owner flags
      (detail, defined))
  show (finishFunction p n decorators parameters returnHint owner flags (detail, defined)
    m₃).Meets _ _ _
  rw [finishFunction_eq]
  refine hcompleted.bind ?_
  rintro ⟨decorated, m₇⟩ ⟨⟨hjoins, hlate⟩, hfirst, hnext⟩
  refine (hrests.joins hm).trans (joins_keepFunction hrests.toOrderly hfree₂ hn hfunctions hstays
    ⟨_, hcore, htrue, hfalse⟩ hjoins ?_ hfirst hnext)
  exact (hlate (hkept ▸ Option.some_ne_none _)).2

/-- The rule for a function that is decorated with `overload` at most joins functions. -/
theorem meets_function (hm : m.Orderly p cut) :
    (Definitions.function p n m).Meets (fun _ m' => m'.Orderly p cut) answers
      fun r => m.Joins p cut overtaken r.2 := by
  have hjoins : m.Joins p cut overtaken m := .of_functions hm (.refl _) rfl hm.toReads
  cases hkept : m.functions.lookup n with
  | some types =>
    unfold Definitions.function
    rw [Query.get_bind, hkept]
    exact hjoins
  | none =>
    obtain ⟨decorators, isAsync, name, parameters, returnHint, suite, hform⟩ :=
      form?_of_isFunction hn.isFunction
    rw [function_eq hform hkept]
    -- The class that it is a method of is asked for first, and may have led to it.
    refine (meets_of_changes hanswers hm (changes_ownerOf p n m)).bind fun r h₁ => ?_
    obtain ⟨owner, m₁⟩ := r
    dsimp only at h₁ ⊢
    cases hkept₁ : m₁.functions.lookup n with
    | some types => exact h₁
    | none =>
      have hdecorators : p.decoratorsOf n = decorators.filterMap p.decoratorExpression? := by
        rw [Program.decoratorsOf, hform]
      exact (meets_newFunction hbuiltins hanswers hminds hn h₁.toOrderly hkept₁ hdecorators isAsync
        parameters returnHint owner).bind fun r h => h₁.trans h

end Rule

end Evaluation

end TypeProbe
