import TypeProbe.Proofs.Inference.Entries
import TypeProbe.Proofs.Inference.Explaining

/-!
# What is kept is explained

Of all rules only the one for nodes keeps types of nodes, and these are explained. The others leave
types, nodes and what is known beforehand as they are, the rule for classes since it changes none but
the class that it adds. A rule gives the provisional type only if a guard stands in the way of what
it is asked for, so that what has been cut off is what has been barred on the way from one of the
questions that have been asked (`Query.WasCutOff`). So all types that a checker for a file keeps of
nodes are explained (`Checker.Traced.explained`).
-/

namespace TypeProbe

open TypeStore

namespace Memory.Upholds

variable {p : Program} {cut : Query → Prop} {m : Memory}

/-- A function may be added. -/
theorem addFunction (f : FunctionDetail) :
    m.Upholds p cut { m with store := (m.store.addFunction f).2 } :=
  .of_within (.refl _) rfl rfl fun _ _ => rfl

/-- The classes that are known beforehand come first. -/
theorem size_le (h : m.store.Foreknows) :
    Builtins.foreknown.2.classes.size ≤ m.store.classes.size := by
  by_contra hlt
  have hin : (⟨m.store.classes.size⟩ : ClassId).In Builtins.foreknown.2 := Nat.lt_of_not_le hlt
  have hclass := h.classes _ _ (Array.getElem?_eq_getElem hin)
  exact Nat.lt_irrefl _ (Array.getElem?_eq_some_iff.1 hclass).1

/-- A class may be added. -/
theorem addClass (c : ClassDetail) :
    m.Upholds p cut { m with store := (m.store.addClass c).2 } := by
  refine fun hm => of_within (.refl _) rfl rfl (fun d hd => ?_) hm
  have hlt : d.index < m.store.classes.size := Nat.lt_of_lt_of_le hd (size_le hm)
  exact (class?_addClass c d).trans (if_neg (Nat.ne_of_lt hlt))

/-- A class that is not known beforehand may be changed. -/
theorem modifyClass {d : ClassId} (hd : ¬d.In Builtins.foreknown.2)
    (change : ClassDetail → ClassDetail) :
    m.Upholds p cut { m with store := m.store.modifyClass d change } := by
  refine .of_within (.refl _) rfl rfl fun d' hd' => ?_
  have hne : d.index ≠ d'.index := fun heq => hd (show d.index < _ from heq ▸ hd')
  exact (class?_modifyClass d d' change).trans (if_neg hne)

end Memory.Upholds

/-- The type of a declaration may be kept when it has received it. -/
theorem Memory.Advances.keepDeclaration {p : Program} {cut : Query → Prop}
    {counts : Declaration → Prop} {m m' m'' : Memory} {d : Declaration} {t : TypeId}
    (h : m.Advances p cut counts m') (hstore : m''.store = m'.store)
    (hnodes : m''.nodeTypes = m'.nodeTypes)
    (hdeclarations : m''.declarationTypes = (d.node, t) :: m'.declarationTypes)
    (hd : counts d) (hreceives : m'.Receives p cut d t) : m.Advances p cut counts m'' := by
  have hretains : m'.Retains m'' := {
    within := hstore ▸ .refl _
    nodeTypes := fun _ _ hn => hnodes ▸ hn
    declarationTypes := hdeclarations ▸ List.subset_cons_self _ _ }
  refine ⟨h.toRetains.trans hretains, hstore ▸ h.foreknows, fun n t hn => ?_, fun n t' hn => ?_⟩
  · exact (h.explains n t (hnodes ▸ hn)).imp_right (Memory.Explains.mono hretains)
  rw [hdeclarations] at hn
  rcases List.mem_cons.1 hn with heq | hold
  · cases heq
    exact .inr ⟨d, hd, rfl, hreceives.mono hretains⟩
  · exact (h.receives n t' hold).imp_right fun ⟨d, hd, hnode, hreceives⟩ =>
      ⟨d, hd, hnode, hreceives.mono hretains⟩

/-- The type of a node may be kept when it is explained, if none has been kept yet. -/
theorem Memory.Advances.keepNode {p : Program} {cut : Query → Prop}
    {counts : Declaration → Prop} {m m' m'' : Memory} {n : NodeId} {t : TypeId}
    (h : m.Advances p cut counts m') (hstore : m''.store = m'.store)
    (hnodes : m''.nodeTypes = (n, t) :: m'.nodeTypes)
    (hdeclarations : m''.declarationTypes = m'.declarationTypes)
    (hfree : m'.nodeTypes.lookup n = none) (hexplains : m'.Explains p cut n t) :
    m.Advances p cut counts m'' := by
  have hretains : m'.Retains m'' := by
    refine ⟨hstore ▸ .refl _, fun k t' hk => ?_, hdeclarations ▸ List.Subset.refl _⟩
    have hne : k ≠ n := by
      rintro rfl
      cases hfree.symm.trans hk
    rwa [hnodes, lookup_cons_of_ne hne]
  refine ⟨h.toRetains.trans hretains, hstore ▸ h.foreknows, fun k t' hk => ?_, fun k t' hk => ?_⟩
  · rw [hnodes] at hk
    by_cases heq : k = n
    · subst heq
      obtain rfl := Option.some.inj (List.lookup_cons_self.symm.trans hk)
      exact .inr (hexplains.mono hretains)
    · rw [lookup_cons_of_ne heq] at hk
      exact (h.explains k t' hk).imp_right (Memory.Explains.mono hretains)
  · exact (h.receives k t' (hdeclarations ▸ hk)).imp_right fun ⟨d, hd, hnode, hreceives⟩ =>
      ⟨d, hd, hnode, hreceives.mono hretains⟩

namespace Evaluation

variable {p : Program} {cut : Query → Prop} {m : Memory}

/-- The evaluation of a class definition upholds. -/
theorem upholds_classDef (hm : m.Regular p) (n : NodeId) :
    (Definitions.classDef p n m).ChangesBy (Memory.Upholds p cut) m := by
  refine changes_classDef p (fun m types => .of_within (.refl _) rfl rfl fun _ _ => rfl)
    (fun c _ => .addClass c) fun m' change _ => .modifyClass ?_ change
  exact Nat.not_lt_of_le (Memory.Upholds.size_le hm.foreknows)

/-! ## Names and declarations -/

section Names

open Names

/-- A name that is no title stands for what is declared there or for what it uses. -/
theorem name_of_not_isTitle {n : NodeId} (h : p.isTitle n = false) (value : String) :
    Expressions.name p n value = Expressions.plainName p n value := by
  unfold Program.isTitle at h
  unfold Expressions.name
  cases hparent : p.arena.parent? n with
  | none => rfl
  | some parent =>
    rw [hparent] at h
    dsimp only [Option.bind_some] at h ⊢
    cases hform : p.arena.form? parent with
    | none => rfl
    | some form =>
      rw [hform] at h
      cases form with
      | function | classDef | parameter | memberAccess | argument =>
        exact if_neg (beq_eq_false_iff_ne.1 h)
      | moduleName | importAs | importFromAs => cases h
      | _ => rfl

/-- The value of an expression is that of its node. -/
theorem sourceType_of_hasValue {source : NodeId} (h : p.hasValue source = true) :
    sourceType p source = typeOf source := by
  unfold Program.hasValue at h
  unfold sourceType
  cases hform : p.arena.form? source with
  | none =>
    rw [hform] at h
    cases h
  | some form =>
    rw [hform] at h
    cases form with
    | forLoop | comprehensionFor | withItem | except | augmentedAssignment => cases h
    | _ => rfl

variable (hm : m.Regular p)
include hm

/-- What is taken out of a type along a path is taken out of it. -/
theorem goes_unpacked (path : List Nat) {whole : TypeId} (hwhole : whole.In m.store) :
    Ensures (Query.Told p cut) m
      (path.foldlM (fun type place => onStore (Values.unpacked p.builtins type place)) whole)
      fun t m' => m.Goes p cut m' ∧ m'.Unpacks p path whole t := by
  induction path generalizing m whole with
  | nil => exact .ret ⟨.refl hm, rfl⟩
  | cons place path ih =>
    rw [List.foldlM_cons]
    refine (goes_make hm (hasAll_cons.2 ⟨hwhole, hasAll_nil⟩)
      (Values.works_unpacked hm.sound.builtins place) (keeping_unpacked _ whole place)).bind
      fun part m1 ⟨h1, hpart, hmade⟩ => ?_
    exact (ih h1.regular hpart).weaken fun t m2 ⟨h2, hunpacks⟩ =>
      ⟨h1.trans h2, part, hmade.mono h2.within, hunpacks⟩

/-- A variable without a type hint receives its type. -/
theorem receives_variableType (d : Declaration) :
    Ensures (Query.Told p cut) m (variableType p d) fun t m' =>
      m.Goes p cut m' ∧ m'.Receives p cut d t := by
  by_cases hvalue : ∃ source, d.source = some source ∧ p.hasValue source = true
  · obtain ⟨source, hsource, hvalue⟩ := hvalue
    have hnode : (p.arena.get? source).isNone = false := by
      unfold Program.hasValue Arena.form? at hvalue
      cases hget : p.arena.get? source with
      | none =>
        rw [hget] at hvalue
        cases hvalue
      | some node => rfl
    unfold variableType
    rw [hsource]
    dsimp only
    rw [hnode, sourceType_of_hasValue hvalue]
    refine (goes_typeOf hm source).bind fun whole m1 ⟨h1, hwhole, htakes⟩ => ?_
    refine (goes_unpacked h1.regular d.path hwhole).weaken fun t m2 ⟨h2, hunpacks⟩ =>
      ⟨h1.trans h2, fun _ _ source' hsource' _ => ?_⟩
    cases hsource.symm.trans hsource'
    exact ⟨whole, htakes.mono h2.toRetains, hunpacks⟩
  · exact (goes_of hm (works_variableType (free_knowing m) d) (changes_variableType p d m)).weaken
      fun t m' ⟨h, _⟩ => ⟨h, fun _ _ source hsource h => absurd ⟨source, hsource, h⟩ hvalue⟩

/-- What is answered for a variable is given by it, and what is kept of it is received. -/
theorem tells_declaration (d : Declaration)
    (hcut : m.Bars (.declaration d) → cut (.declaration d)) :
    Ensures (Query.Told p cut) m (Names.declaration p d) fun t m' =>
      m.Advances p cut ((Query.declaration d).Counts p) m' ∧
        (d.kind = .variable → m'.Gives cut d t) := by
  have hdefinition : ∀ {q : Query} {f : q.Answer → TypeId}, q.Known p → q.In m.store →
      d.kind ≠ .variable → Ensures (Query.Told p cut) m (do return f (← ask q)) fun t m' =>
        m.Advances p cut ((Query.declaration d).Counts p) m' ∧
          (d.kind = .variable → m'.Gives cut d t) :=
    fun hknown hq hkind => (goes_ask hm hknown hq).bind fun _ m1 ⟨h1, _⟩ =>
      .ret ⟨h1.toAdvances.mono fun _ => .inl, fun h => absurd h hkind⟩
  unfold Names.declaration
  split
  · rename_i hkind
    exact hdefinition (q := .classDef d.node) trivial trivial (hkind ▸ nofun)
  · rename_i hkind
    exact hdefinition (q := .function d.node) trivial trivial (hkind ▸ nofun)
  refine .get ?_
  split
  · rename_i type hkept
    exact .ret ⟨.refl hm.foreknows, fun _ => .inl (mem_of_lookup hkept)⟩
  rename_i hnone
  refine ensures_guarded (fun hdenied => ⟨.refl hm.foreknows, fun _ =>
    .inr ⟨rfl, hcut ⟨hnone, hdenied⟩⟩⟩) fun hentered => ?_
  have hm1 : Memory.Regular p (declarationSlot.put ((declarationSlot.guard m).enter d.node).2 m) :=
    ⟨lawful_declarationSlot.sound _ hm.sound, hm.foreknows⟩
  have hother : ∀ {e : Evaluation TypeId} {m1 : Memory} {post : TypeId → TypeStore → Prop},
      m1.Regular p → Works p (Query.Knowing p) m1 e post →
      (e m1).ChangesBy (Memory.Upholds p cut) m1 → (d.kind = .variable → d.hint ≠ none) →
      Ensures (Query.Told p cut) m1 e fun t m' => m1.Goes p cut m' ∧ m'.Receives p cut d t :=
    fun hm1 hworks hchanges hkind => (goes_of hm1 hworks hchanges).weaken
      fun t m' ⟨h, _⟩ => ⟨h, fun hvariable hhint => absurd hhint (hkind hvariable)⟩
  refine Ensures.weaken (?_ : Ensures _ _ _ fun t m' => Memory.Goes p cut (declarationSlot.put
    ((declarationSlot.guard m).enter d.node).2 m) m' ∧ m'.Receives p cut d t)
    fun t m' ⟨h, hreceives⟩ => ?_
  · split
    · rename_i hkind
      exact hother hm1 (works_parameter (free_knowing _) _) (changes_parameter p _ _)
        (by rw [hkind]; nofun)
    · rename_i hkind
      exact hother hm1 (works_imported _) (changes_imported p _ _) (by rw [hkind]; nofun)
    · rename_i hint hhint _ _
      exact hother hm1 (works_askHint (.of_all (free_knowing _) fun _ => trivial) hint)
        (ChangesBy.ask (.hint hint) _) (by rw [hhint]; nofun)
    · exact receives_variableType hm1 d
  · have hadvances : m.Advances p cut ((Query.declaration d).Counts p) m' :=
      ⟨⟨h.within, h.nodeTypes, h.declarationTypes⟩, h.foreknows, h.explains,
        (h.toAdvances.mono fun _ => .inl).receives⟩
    exact ⟨hadvances.keepDeclaration rfl rfl rfl (.inr rfl) hreceives, fun _ =>
      .inl List.mem_cons_self⟩

/-- A name that is no title is given its type by what it stands for. -/
theorem gives_plainName (n : NodeId) (value : String) :
    Ensures (Query.Told p cut) m (Expressions.plainName p n value) fun a m' => ∀ t ∈ a,
      ∀ d, p.standsFor? n value = some d → d.kind = .variable → m'.Gives cut d t := by
  have hask : ∀ d, p.bindings.Knows d → Ensures (Query.Told p cut) m (ask (.declaration d))
      fun t m' => d.kind = .variable → m'.Gives cut d t := fun d hd =>
    (goes_ask hm (q := .declaration d) hd trivial).weaken fun t m' ⟨_, _, hgives⟩ => hgives
  unfold Expressions.plainName Expressions.declared Program.standsFor?
  cases hdeclared : p.bindings.declaration? n with
  | some d =>
    have hfound : Ensures (Query.Told p cut) m (do return some (← ask (.declaration d)))
        fun found m' => ∃ t, found = some t ∧ (d.kind = .variable → m'.Gives cut d t) :=
      (hask d (Bindings.knows_of_declaration? hdeclared)).bind fun t m' hgives =>
        .ret ⟨t, rfl, hgives⟩
    refine hfound.bind ?_
    rintro _ m' ⟨t, rfl, hgives⟩
    refine .ret fun t' ht' d' hd' => ?_
    cases ht'
    cases hd'
    exact hgives
  | none =>
    have hnone : Ensures (Query.Told p cut) m (pure (none : Option TypeId))
        fun found m' => found = none ∧ m' = m := .ret ⟨rfl, rfl⟩
    refine hnone.bind ?_
    rintro _ _ ⟨rfl, rfl⟩
    refine Ensures.bind
      (?_ : Ensures _ _ _ fun t m' => ∀ d, _ → d.kind = .variable → m'.Gives cut d t)
      fun t m' hgives => .ret fun t' ht' => Option.some.inj ht' ▸ hgives
    unfold lookup
    dsimp only
    cases hlookup : p.bindings.lookup? (p.bindings.scopeContaining p.arena n) value with
    | none => exact Ensures.trivial.weaken fun _ _ _ _ => nofun
    | some found =>
      obtain ⟨found, ds⟩ := found
      dsimp only [Option.none_or, Option.bind_eq_bind, Option.bind_some]
      unfold ofDeclarations
      dsimp only
      by_cases hscope : found = p.bindings.scopeContaining p.arena n
      · rw [if_pos hscope, if_pos (beq_iff_eq.2 hscope)]
        cases hlatest : p.latest? (ds.filter (p.precedes (p.arena.startOf n))) with
        | none => exact Ensures.trivial.weaken fun _ _ _ _ => nofun
        | some d =>
          refine (hask d (Bindings.knows_of_lookup? hlookup
            (List.mem_filter.1 (mem_of_latest? hlatest)).1)).weaken fun t m' hgives d' hd' => ?_
          cases hd'
          exact hgives
      · rw [if_neg hscope]
        exact Ensures.trivial.weaken fun _ _ _ _ => nofun

end Names

/-! ## Nodes -/

section Rules

variable (hm : m.Regular p)
include hm

/-- What is computed for a node is explained. -/
theorem explains_compute (hbuiltins : p.builtins = Builtins.foreknown.1) (n : NodeId) :
    Ensures (Query.Told p cut) m (Expressions.compute p n) fun a m' =>
      m.Goes p cut m' ∧ ∀ t ∈ a, m'.Explains p cut n t := by
  have hgoes : Ensures (Query.Told p cut) m (Expressions.compute p n) fun a m' =>
      m.Goes p cut m' ∧ ∀ t ∈ a, t.In m'.store :=
    goes_of hm (works_compute (free_knowing m) n) (changes_compute p (fun parameters _ _ =>
      changes_lambda p (fun _ f _ => .addFunction f) parameters) m)
  have hwhole : ∀ {e : Evaluation TypeId} {post : TypeId → Memory → Prop},
      Ensures (Query.Told p cut) m e post →
      Ensures (Query.Told p cut) m (some <$> e) fun a m' => ∀ t ∈ a, post t m' :=
    fun h => h.map fun t m' ht t' ht' => Option.mem_some_iff.1 ht' ▸ ht
  refine Ensures.weaken (Ensures.and hgoes ?_) fun a m' ⟨⟨h, _⟩, ha⟩ => ⟨h, ha⟩
  unfold Memory.Explains Expressions.compute
  extract_lets b whole
  cases p.arena.form? n with
  | none => exact .ret nofun
  | some form =>
    cases form with
    | name token value =>
      by_cases htitle : p.isTitle n = true
      · exact Ensures.trivial.weaken fun _ _ _ _ _ h => absurd (htitle.symm.trans h) nofun
      · dsimp only
        rw [name_of_not_isTitle (Bool.eq_false_iff.2 htitle)]
        exact (gives_plainName hm n value).weaken fun _ _ h t ht _ => h t ht
    | number literal =>
      exact hwhole ((goes_make hm hasAll_nil (Values.works_number hm.sound.builtins literal)
        (keeping_number _ literal)).weaken fun t m' ⟨_, _, hmade⟩ => hmade)
    | tuple items _ =>
      exact hwhole ((explains_tuple hm items).weaken fun t m' ⟨_, h⟩ => h)
    | list entries =>
      exact hwhole ((explains_list hm entries).weaken fun t m' ⟨_, h⟩ => h)
    | unpack expression =>
      refine hwhole ((goes_typeOf hm expression).bind fun type m1 ⟨h1, htype, htakes⟩ => ?_)
      exact (goes_make h1.regular (hasAll_cons.2 ⟨htype, hasAll_nil⟩)
        (Values.works_iteratedAt _ h1.sound.builtins) (keeping_iteratedAt _ _ _)).weaken
        fun t m2 ⟨h2, _, hmade⟩ => ⟨type, htakes.mono h2.toRetains, hmade⟩
    | unaryOperation op _ expression =>
      by_cases hop : op = .not
      · exact Ensures.trivial.weaken fun _ _ _ _ _ h => absurd hop h
      · refine hwhole ((goes_typeOf hm expression).bind fun type m1 ⟨h1, htype, htakes⟩ => ?_)
        exact (explains_unary h1.regular hop htype).weaken
          fun t m2 ⟨h2, _, hsigns⟩ _ => ⟨type, htakes.mono h2.toRetains, hsigns⟩
    | binaryOperation op _ left right _ =>
      by_cases hop : op ≠ .and ∧ op ≠ .or ∧ op.isComparison = false
      · obtain ⟨hand, hor, hcomparison⟩ := hop
        refine hwhole ((goes_typeOf hm left).bind fun l m1 ⟨h1, hl, hleft⟩ => ?_)
        refine (goes_typeOf h1.regular right).bind fun r m2 ⟨h2, hr, hright⟩ => ?_
        exact (explains_binary h2.regular hand hor hcomparison (hl.mono h2.grows.store) hr
          hbuiltins).weaken fun t m3 ⟨h3, _, hcalculates⟩ _ _ _ =>
            ⟨l, r, hleft.mono (h2.trans h3).toRetains, hright.mono h3.toRetains, hcalculates⟩
      · exact Ensures.trivial.weaken fun _ _ _ _ _ hand hor h => absurd ⟨hand, hor, h⟩ hop
    | index base items =>
      exact hwhole ((explains_index hm hbuiltins n base items).weaken fun t m' ⟨_, h⟩ => h)
    | _ => exact Ensures.trivial.weaken fun _ _ _ _ _ => trivial

/-- What is answered for a node is what it is taken to be, and what is kept of it is explained. -/
theorem tells_node (hbuiltins : p.builtins = Builtins.foreknown.1) (n : NodeId)
    (hcut : m.Bars (.node n) → cut (.node n)) :
    Ensures (Query.Told p cut) m (Expressions.node p n) fun a m' =>
      m.Advances p cut p.bindings.Knows m' ∧ m'.Takes p cut n (a.getD .unknown) := by
  refine .get ?_
  cases hkept : m.nodeTypes.lookup n with
  | some type => exact .ret ⟨.refl hm.foreknows, .inl hkept⟩
  | none =>
    refine ensures_guarded (fun hdenied => ⟨.refl hm.foreknows,
      .inr (.inl ⟨rfl, hcut ⟨hkept, hdenied⟩⟩)⟩) fun hentered => ?_
    have hm1 : Memory.Regular p (nodeSlot.put ((nodeSlot.guard m).enter n).2 m) :=
      ⟨lawful_nodeSlot.sound _ hm.sound, hm.foreknows⟩
    have hvalue : Ensures (Query.Tells p cut) (nodeSlot.put ((nodeSlot.guard m).enter n).2 m)
        (Expressions.compute p n) fun a _ => p.hasValue n = true → a.isSome := by
      cases hvalue : p.hasValue n with
      | false => exact Ensures.trivial.weaken fun _ _ _ h => absurd h Bool.false_ne_true
      | true => exact (Ensures.of_answers (isSome_compute hvalue) And.left).weaken fun _ _ h _ => h
    have hsafe := hvalue.safely_within hm1.sound (works_compute (free_knowing _) n)
    refine ((explains_compute hm1 hbuiltins n).and hsafe).weaken
      fun a m' ⟨⟨h, hexplains⟩, _, _, _, hsome⟩ => ?_
    have hadvances : m.Advances p cut p.bindings.Knows m' :=
      ⟨⟨h.within, h.nodeTypes, h.declarationTypes⟩, h.foreknows, h.explains, h.receives⟩
    cases a with
    | none =>
      refine ⟨hadvances.trans (Memory.Upholds.of_within (.refl _) rfl rfl (fun _ _ => rfl)
        h.foreknows), .inr (.inr ⟨?_, rfl⟩)⟩
      exact Bool.eq_false_iff.2 fun hvalue => Bool.false_ne_true (hsome hvalue)
    | some type =>
      -- Nothing has been kept of the node meanwhile.
      have hfree : m'.nodeTypes.lookup n = none :=
        (h.grows.active n (Guard.mem_enter hentered)).trans hkept
      exact ⟨hadvances.keepNode rfl rfl rfl hfree (hexplains type rfl),
        .inl List.lookup_cons_self⟩

end Rules

/-- Nothing is known of a member of what is unknown, and no class that is known beforehand has a
member for an operation. -/
theorem reveals_member (hm : m.Regular p) {object : TypeId} (hobject : object.In m.store)
    (name : String) :
    Ensures (Query.Told p cut) m (Calls.member p object name) fun a m' =>
      (Query.member object name).Reveals p cut m a m' := by
  obtain ⟨t, hget⟩ : ∃ t, m.store.get? object = some t := ⟨_, Array.getElem?_eq_getElem hobject⟩
  refine .store ?_
  by_cases hunknown : m.store.isUnknown object = true
  · rcases get?_of_isUnknown hunknown with hnone | ⟨flags, incomplete, hsome⟩
    · rw [hget] at hnone
      cases hnone
    · rw [hsome]
      refine .ret ⟨fun _ => rfl, fun d arguments literal hnominal => ?_⟩
      rw [hnominal.isUnknown_eq] at hunknown
      cases hunknown
  by_cases hnominal : (∃ d arguments literal, m.store.IsNominal object d arguments literal ∧
      d.In Builtins.foreknown.2) ∧ name ∈ Values.operationNames
  · obtain ⟨⟨d, arguments, literal, hnominal, hd⟩, hname⟩ := hnominal
    rw [hnominal]
    dsimp only
    rw [if_neg (not_isInstantiable_value _), hm.foreknows.member?_eq_none hd hname]
    exact .ret ⟨fun h => absurd h hunknown, fun _ _ _ _ _ _ => rfl⟩
  · exact Ensures.trivial.weaken fun a m' _ => ⟨fun h => absurd h hunknown,
      fun d arguments literal h hd hname => absurd ⟨⟨d, arguments, literal, h, hd⟩, hname⟩ hnominal⟩

/-- Nothing is known of a call of what is unknown. -/
theorem reveals_call (callee : TypeId) (arguments : List TypeId) :
    Ensures (Query.Told p cut) m (Calls.call p callee arguments) fun a _ =>
      m.store.isUnknown callee = true → a = .unknown := by
  refine .store ?_
  by_cases hunknown : m.store.isUnknown callee = true
  · rcases get?_of_isUnknown hunknown with hget | ⟨flags, incomplete, hget⟩
    · rw [hget]
      exact .ret fun _ => rfl
    · rw [hget]
      exact .ret fun _ => rfl
  · exact Ensures.trivial.weaken fun _ _ _ h => absurd h hunknown

/-- Every rule leaves what is kept, explains what it keeps, and reveals of its answer what is known
of it, if what a guard stands in the way of has been cut off. -/
theorem tells_rule (htree : p.arena.ChildrenFirst) (hbuiltins : p.builtins = Builtins.foreknown.1)
    (hm : m.Regular p) {q : Query} (hq : q.In m.store) (hcut : m.Bars q → cut q) :
    Ensures (Query.Told p cut) m (q.rule p) fun a m' =>
      m.Advances p cut (q.Counts p) m' ∧ q.Reveals p cut m a m' := by
  have hworks := Query.works_rule_known htree hq
  have hchanged : (q.rule p m).ChangesBy (Memory.Upholds p cut) m →
      Ensures (Query.Told p cut) m (q.rule p) fun _ m' => m.Advances p cut (q.Counts p) m' :=
    fun h => (goes_of hm hworks h).weaken fun _ _ ⟨h, _⟩ => h.toAdvances.mono fun _ => .inl
  cases q with
  | node n =>
    exact (tells_node hm hbuiltins n hcut).weaken
      fun a m' ⟨h, ht⟩ => ⟨h.mono fun _ => .inl, ht⟩
  | classDef n =>
    exact (hchanged (upholds_classDef hm n)).weaken fun _ _ h => ⟨h, trivial⟩
  | function n =>
    refine (hchanged (changes_function p (fun m types => ?_)
      (fun _ m f _ => .addFunction f) m)).weaken fun _ _ h => ⟨h, trivial⟩
    exact .of_within (.refl _) rfl rfl fun _ _ => rfl
  | declaration d => exact tells_declaration hm d hcut
  | hint n => exact (hchanged (changes_hint p n m)).weaken fun _ _ h => ⟨h, trivial⟩
  | returned d => exact (hchanged (changes_returned p d m)).weaken fun _ _ h => ⟨h, trivial⟩
  | member object name =>
    exact (hchanged (changes_member p object name m)).and (reveals_member hm hq name)
  | call callee arguments =>
    exact (hchanged (changes_call p callee arguments m)).and (reveals_call callee arguments)

/-- The rules ensure what is told of answers. -/
theorem lawful_rule (htree : p.arena.ChildrenFirst) (hbuiltins : p.builtins = Builtins.foreknown.1)
    (q : Query) (m : Memory) (hcut : m.Bars q → cut q) :
    Ensures (Query.Told p cut) m (q.rule p) fun a m' => m.Sound p.builtins → q.In m.store →
      Fits p q m a m' ∧ q.Tells p cut m a m' := by
  by_cases hsafe : m.Sound p.builtins ∧ q.In m.store
  · obtain ⟨hm, hq⟩ := hsafe
    have hgives : Ensures (Query.Tells p cut) m (q.rule p) (q.Given p m) :=
      Ensures.of_answers (ensures_given q) And.left
    have hgiven := hgives.safely_within hm (Query.works_rule_known htree hq)
    by_cases hforeknows : m.store.Foreknows
    · exact (hgiven.and (tells_rule htree hbuiltins ⟨hm, hforeknows⟩ hq hcut)).weaken
        fun a m' ⟨⟨hsound, hgrows, hin, hgiven⟩, htells⟩ _ _ =>
          ⟨⟨hsound, hgrows, hin⟩, hgiven, fun _ => htells⟩
    · exact hgiven.weaken fun a m' ⟨hsound, hgrows, hin, hgiven⟩ _ _ =>
        ⟨⟨hsound, hgrows, hin⟩, hgiven, fun h => absurd h hforeknows⟩
  · exact Ensures.trivial.weaken fun _ _ _ hm hq => absurd ⟨hm, hq⟩ hsafe

end Evaluation

namespace Query

variable {p : Program} {cut : Query → Prop} {asked : List State} {a b : State} {q : Query}

/-- On the way from a question, a guard stands in the way of another one. -/
def IsBarred (p : Program) (a : State) (q : Query) : Prop :=
  ∃ m, Reaches p a (q, m) ∧ m.Bars q

/-- What a question leads to is on the way from it. -/
theorem IsBarred.head (hleads : Leads p a b) (h : q.IsBarred p b) : q.IsBarred p a := by
  obtain ⟨m, hreaches, hbars⟩ := h
  exact ⟨m, .head hleads hreaches, hbars⟩

/-- On the way from one of the questions that have been asked, a guard stood in the way of another
one. -/
def WasCutOff (p : Program) (asked : List State) (q : Query) : Prop :=
  ∃ a ∈ asked, q.IsBarred p a

/-- What a guard stood in the way of has been cut off when another question has been asked. -/
theorem WasCutOff.cons (h : q.WasCutOff p asked) (a : State) : q.WasCutOff p (a :: asked) := by
  obtain ⟨b, hb, hbarred⟩ := h
  exact ⟨b, List.mem_cons_of_mem a hb, hbarred⟩

/-- What the rules tell is told of an answer, if all that is barred on the way to it has been cut
off. -/
theorem tells_of_answer (htree : p.arena.ChildrenFirst)
    (hbuiltins : p.builtins = Builtins.foreknown.1) (hcut : ∀ q, IsBarred p a q → cut q)
    {r : a.1.Answer} {m' : Memory} (hanswer : a.1.answer p a.2 = some (r, m')) :
    a.1.Safely p (Tells p cut) a.2 r m' := by
  have hrules : ∀ b : State, (∀ q, IsBarred p b q → cut q) →
      (b.1.rule p b.2).Meets
        (fun q m => Leads p b (q, m) → ∀ q', IsBarred p (q, m) q' → cut q')
        (fun q m r m' => Leads p b (q, m) ∧ q.answer p m = some (r, m') ∧
          q.Safely p (Tells p cut) m r m')
        fun r => b.1.Safely p (Tells p cut) b.2 r.1 r.2 := by
    intro b hb
    have hrule := Evaluation.lawful_rule htree hbuiltins b.1 b.2 fun h => hb b.1 ⟨b.2, .refl, h⟩
    exact (Dialogue.Meets.of_answers hrule fun h hfit => h.2.2 hfit.1 hfit.2.1).imp
      (fun q m _ hleads q' h => hb q' (h.head hleads)) fun r h => h
  exact answers_of_ends hrules (answer_isSome_iff_ends.1 (Option.isSome_of_eq_some hanswer)) hcut
    hanswer

end Query

/-- In an expression the evaluation of a part has been cut off, or that of what is around it. -/
def Arena.CutAround (a : Arena) (cut : Query → Prop) (whole part : NodeId) : Prop :=
  ∃ n, a.Reaches whole n ∧ a.Reaches n part ∧ cut (.node n)

/-- What is around a part is in what is around the expression. -/
theorem Arena.CutAround.head {a : Arena} {cut : Query → Prop} {around whole part : NodeId}
    (h : a.CutAround cut whole part) (hreaches : a.Reaches around whole) :
    a.CutAround cut around part := by
  obtain ⟨n, hwhole, hpart⟩ := h
  exact ⟨n, hreaches.trans hwhole, hpart⟩

/-! ## Checkers -/

/-- A regular memory in which all types that are kept of nodes are explained. -/
structure Memory.Explained (p : Program) (cut : Query → Prop) (m : Memory) : Prop
    extends m.Regular p where
  /-- The types of nodes are explained. -/
  explains : ∀ n t, m.nodeTypes.lookup n = some t → m.Explains p cut n t

/-- What a node is taken to be is explained, or nothing is known of it, since it has been cut off or
has no value. -/
theorem Memory.Takes.explains {p : Program} {cut : Query → Prop} {m : Memory} {n : NodeId}
    {t : TypeId} (h : m.Takes p cut n t) (hm : m.Explained p cut) :
    m.Explains p cut n t ∨
      m.store.isUnknown t = true ∧ t.In m.store ∧ (p.hasValue n = true → cut (.node n)) := by
  rcases h with hkept | ⟨rfl, hcut⟩ | ⟨hvalue, rfl⟩
  · exact .inl (hm.explains n t hkept)
  · exact .inr ⟨Evaluation.isUnknown_incomplete hm.toRegular,
      hm.sound.store.basic_in (by decide), fun _ => hcut⟩
  · exact .inr ⟨Evaluation.isUnknown_unknown hm.toRegular, hm.sound.store.basic_in (by decide),
      fun h => absurd (h.symm.trans hvalue) (by decide)⟩

namespace Checker

variable {name text : String} {c c' : Checker} {asked : List Query.State} {cut : Query → Prop}
  {q : Query} {a : q.Answer}

/-- The checkers for a file, with the questions that they have answered before, each with the memory
that it was asked of. These are about what was there. -/
inductive Traced (file : SourceFile) : List Query.State → Checker → Prop
  | start : Traced file [] file.checker
  | answered {asked : List Query.State} {c c' : Checker} {q : Query} {a : q.Answer}
    (h : Traced file asked c) (hq : q.In c.store) (ha : c.ask? q = some (a, c')) :
    Traced file ((q, c.memory) :: asked) c'

/-- A checker that has been asked is one for the file. -/
theorem Traced.reached {file : SourceFile} (h : Traced file asked c) : Reached file c := by
  induction h with
  | start => exact .start
  | answered _ hq ha ih => exact .answered ih hq ha

/-- A checker for a file has been asked something. -/
theorem Reached.exists_traced {file : SourceFile} (h : Reached file c) :
    ∃ asked, Traced file asked c := by
  induction h with
  | start => exact ⟨[], .start⟩
  | answered _ hq ha ih =>
    obtain ⟨asked, htraced⟩ := ih
    exact ⟨_, .answered htraced hq ha⟩

/-- All checkers for a file have its program. -/
theorem Reached.program_eq {file : SourceFile} (h : Reached file c) :
    c.program = ⟨file.parsed.arena, file.bindings, file.moduleName, Builtins.foreknown.1⟩ := by
  induction h with
  | start =>
    obtain ⟨b, s, hcreate, hstart⟩ := checker_eq file
    rw [hstart, Builtins.foreknown, hcreate]
  | answered _ _ ha ih =>
    obtain ⟨⟨a', m'⟩, -, heq⟩ := Option.map_eq_some_iff.1 ha
    cases heq
    exact ih

/-- What a checker for a file is asked, in which what is known beforehand is there, tells of its
answer. -/
theorem Reached.tells_of_foreknows (h : Reached (SourceFile.ofText name text) c)
    (hforeknows : c.store.Foreknows) (hq : q.In c.store) (ha : c.ask? q = some (a, c'))
    (hcut : ∀ r, Query.IsBarred c.program (q, c.memory) r → cut r) :
    c.memory.Advances c.program cut (q.Counts c.program) c'.memory ∧
      q.Reveals c.program cut c.memory a c'.memory := by
  obtain ⟨⟨a', m'⟩, hanswer, heq⟩ := Option.map_eq_some_iff.1 ha
  cases heq
  have hbuiltins : c.program.builtins = Builtins.foreknown.1 := by rw [h.program_eq]
  have htells := Query.tells_of_answer h.sound.tree hbuiltins (a := (q, c.memory)) hcut hanswer
  exact (htells h.sound.memory hq).2.2 hforeknows

/-- What is known beforehand is in every checker for a file, and the types that it keeps of nodes are
explained. -/
theorem Traced.explained (h : Traced (SourceFile.ofText name text) asked c)
    (hcut : ∀ q, Query.WasCutOff c.program asked q → cut q) :
    c.memory.Explained c.program cut := by
  suffices hexplains : c.store.Foreknows ∧
      ∀ n t, c.memory.nodeTypes.lookup n = some t → c.memory.Explains c.program cut n t from
    ⟨⟨h.reached.sound.memory, hexplains.1⟩, hexplains.2⟩
  -- Over the answered questions; before them nothing is kept of nodes.
  induction h with
  | start =>
    obtain ⟨b, s, hcreate, hstart⟩ := checker_eq (SourceFile.ofText name text)
    have hforeknows := TypeStore.foreknows_foreknown
    rw [Builtins.foreknown, hcreate] at hforeknows
    rw [hstart]
    exact ⟨hforeknows, fun _ _ hn => absurd hn.symm (Option.some_ne_none _)⟩
  | @answered asked c c' q a hc hq ha ih =>
    obtain ⟨-, hprogram⟩ := ask?_eq_some ha
    rw [hprogram] at hcut ⊢
    obtain ⟨hforeknows, hexplains⟩ := ih fun r h => hcut r (h.cons _)
    obtain ⟨hadvances, -⟩ := hc.reached.tells_of_foreknows hforeknows hq ha
      fun r hbarred => hcut r ⟨_, List.mem_cons_self, hbarred⟩
    refine ⟨hadvances.foreknows, fun n t hn => ?_⟩
    rcases hadvances.explains n t hn with hold | hnew
    · exact (hexplains n t hold).mono hadvances.toRetains
    · exact hnew

/-- The memory of a checker for a file is regular. -/
theorem Reached.regular (h : Reached (SourceFile.ofText name text) c) :
    c.memory.Regular c.program := by
  obtain ⟨asked, htraced⟩ := h.exists_traced
  exact (htraced.explained fun _ hcut => hcut).toRegular

end Checker

end TypeProbe
