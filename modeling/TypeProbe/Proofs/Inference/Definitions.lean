import TypeProbe.Proofs.Inference.Hints

/-!
# The rules for definitions work

The types of a definition are kept before its parts are worked out. This takes energy, after which
the rules may ask anything. What the rule for functions asks before is the class around and the
decorators.
-/

open TypeProbe.TypeStore

namespace TypeProbe

/-- The types that the arguments of a class definition amount to. -/
def Definitions.Heritage.types (h : Definitions.Heritage) : List TypeId :=
  h.bases ++ h.metaclass.toList ++ h.generic.getD [] ++ h.typeVars

namespace Evaluation

open Definitions

variable {p : Program} {may : Query → Memory → Prop} {m : Memory} {detail : ClassId}

/-- The types of a class may be kept. -/
theorem sound_keepClass {n : NodeId} {types : DefinitionTypes} (hm : m.Sound p.builtins)
    (htypes : types.In m.store) :
    Memory.Sound p.builtins { m with classes := (n, types) :: m.classes } :=
  { hm with classes := List.forall_mem_cons.2 ⟨htypes, hm.classes⟩ }

/-- What has been kept under a key is kept when something more is kept. -/
theorem isSome_lookup_cons {entries : List (NodeId × DefinitionTypes)} {n : NodeId} (n' : NodeId)
    (types : DefinitionTypes) (h : (entries.lookup n).isSome) :
    (((n', types) :: entries).lookup n).isSome := by
  rw [List.lookup_cons]
  split
  · rfl
  · exact h

/-- A memory grows when the types of a class are kept. -/
theorem grows_keepClass (n : NodeId) (types : DefinitionTypes) :
    m.Grows { m with classes := (n, types) :: m.classes } :=
  { Memory.Grows.refl m with classes := fun _ h => isSome_lookup_cons n types h }

/-- A memory grows when the types of a function are kept. -/
theorem grows_keepFunction (n : NodeId) (types : DefinitionTypes) :
    m.Grows { m with functions := (n, types) :: m.functions } :=
  { Memory.Grows.refl m with functions := fun _ h => isSome_lookup_cons n types h }

/-- A decorator that is called makes something of a definition. -/
theorem works_applied (h : Free p may m) {decorator decorated : TypeId}
    (hdecorator : decorator.In m.store) (hdecorated : decorated.In m.store) :
    Works p may m (applied decorator decorated) TypeId.In := by
  refine (works_askCall (h.now trivial) hdecorator (hasAll_cons.2 ⟨hdecorated, hasAll_nil⟩)).bind
    fun result m1 h1 hresult => .store (.ret fun _ => ?_)
  split
  · exact hdecorated.mono h1.store
  · exact hresult

/-! ## Classes -/

/-- The type variables among types are some of them. -/
theorem mem_foldl_addTypeVar {s : TypeStore} {id : TypeId} (types : List TypeId)
    {typeVars : List TypeId} (h : id ∈ types.foldl (Definitions.addTypeVar s) typeVars) :
    id ∈ typeVars ∨ id ∈ types := by
  refine mem_foldl_of_step (fun typeVars type id hid => ?_) types h
  unfold Definitions.addTypeVar at hid
  split at hid
  · split at hid
    · exact .inl hid
    · exact mem_append_singleton hid
  · exact .inl hid

/-- A base may be added. -/
theorem works_addBase {h : Heritage} {type : TypeId} (hh : m.store.HasAll h.types)
    (htype : type.In m.store) : Works p may m (addBase p h type) fun h s => s.HasAll h.types := by
  refine .intro fun hm => .store ?_
  simp only [Heritage.types, hasAll_append] at hh ⊢
  obtain ⟨⟨⟨hbases, hmetaclass⟩, hgeneric⟩, htypeVars⟩ := hh
  have hbases' : m.store.HasAll (h.bases ++ [type]) :=
    hasAll_append.2 ⟨hbases, hasAll_cons.2 ⟨htype, hasAll_nil⟩⟩
  split
  · rename_i arguments harguments
    have hall := hm.store.hasAll_argumentsOf harguments
    split
    · exact .ret fun _ => ⟨⟨⟨hbases', hmetaclass⟩, hall⟩, htypeVars⟩
    · refine .ret fun _ => ⟨⟨⟨hbases', hmetaclass⟩, hgeneric⟩, fun id hid => ?_⟩
      rcases mem_foldl_addTypeVar arguments hid with hold | hnew
      · exact htypeVars id hold
      · exact hall id hnew
  · exact .ret fun _ => ⟨⟨⟨hbases', hmetaclass⟩, hgeneric⟩, htypeVars⟩

/-- An argument of a class definition is taken into account. -/
theorem works_heritageArgument (hfree : Free p may m) {h : Heritage} (hh : m.store.HasAll h.types)
    (n : NodeId) : Works p may m (heritageArgument p h n) fun h s => s.HasAll h.types := by
  unfold heritageArgument
  split
  · refine (works_typeOf (.of_all hfree fun _ => trivial) _).bind fun type m1 h1 htype => ?_
    have hh' := hh.mono h1.store
    split
    · simp only [Heritage.types, hasAll_append] at hh' ⊢
      obtain ⟨⟨⟨hbases, -⟩, hgeneric⟩, htypeVars⟩ := hh'
      exact .ret fun _ => ⟨⟨⟨hbases, hasAll_cons.2 ⟨htype, hasAll_nil⟩⟩, hgeneric⟩, htypeVars⟩
    · exact .ret fun _ => hh'
    · exact works_addBase hh' htype
  · exact .ret fun _ => hh

/-- The arguments of a class definition are taken into account. -/
theorem works_heritage (hfree : Free p may m) (arguments : List NodeId) :
    Works p may m (heritage p arguments) fun h s => s.HasAll h.types := by
  have hnothing : m.store.HasAll (Heritage.types ⟨[], none, none, []⟩) := nofun
  refine (Works.foldlM hnothing fun h argument _ m' hm' hh =>
    works_heritageArgument (hfree.mono hm') hh argument).bind fun h m1 h1 hh => ?_
  split
  · refine .intro fun hm1 => ?_
    refine (Works.onStore (works_classType_in hm1.builtins.object)).bind fun object m2 h2 hobject =>
      .ret fun _ => ?_
    have hh' := hh.mono h2.store
    simp only [Heritage.types, hasAll_append] at hh' ⊢
    exact ⟨⟨⟨hasAll_cons.2 ⟨hobject, hasAll_nil⟩, hh'.1.1.2⟩, hh'.1.2⟩, hh'.2⟩
  · exact .ret fun _ => hh

/-- A class has a class. -/
theorem works_metaclassOf {h : Heritage} (hh : m.store.HasAll h.types) :
    Works p may m (metaclassOf p h) TypeId.In := by
  refine .intro fun hm => .store ?_
  extract_lets inherited
  split
  · rename_i type htype
    refine .ret fun _ => ?_
    simp only [Heritage.types, hasAll_append] at hh
    rcases Option.or_eq_some_iff.1 htype with hgiven | ⟨-, hinherited⟩
    · exact hh.1.1.2 type (by simp [hgiven])
    · obtain ⟨base, -, hbase⟩ := List.exists_of_findSome?_eq_some hinherited
      obtain ⟨c, hc, heffective⟩ := Option.bind_eq_some_iff.1 hbase
      exact hm.store.hasAll_classOf hc type (by simp [ClassDetail.types, heffective])
  · exact .onStore (works_classType_in hm.builtins.metaclass)

/-- A class is completed with what its arguments say. -/
theorem works_completeHeritage {classType : TypeId} (hclassType : classType.In m.store)
    {h : Heritage} (hh : m.store.HasAll h.types) (body : NodeId) :
    Works p may m (completeHeritage p detail classType h body) fun _ _ => True := by
  refine .intro fun hm => .store ?_
  extract_lets mro
  have hparts := hh
  simp only [Heritage.types, hasAll_append] at hparts
  obtain ⟨⟨⟨hbases, hmetaclass⟩, hgeneric⟩, htypeVars⟩ := hparts
  have hmro : m.store.HasAll mro := hm.store.hasAll_linearize hclassType hbases
  refine (works_metaclassOf hh).bind fun metaclass m1 h1 heffective => .store ?_
  refine .edit (works_modifyClass fun c hc => ?_)
  simp only [ClassDetail.types, hasAll_append, Option.toList_some] at hc ⊢
  refine ⟨⟨⟨⟨⟨hbases.mono h1.store, hmro.mono h1.store⟩, hmetaclass.mono h1.store⟩,
    hasAll_cons.2 ⟨heffective, hasAll_nil⟩⟩, hc.1.2⟩, ?_⟩
  cases hgiven : h.generic with
  | none => exact htypeVars.mono h1.store
  | some types =>
    rw [hgiven] at hgeneric
    exact hgeneric.mono h1.store

/-- A member is added to a class. -/
theorem works_completeField (hfree : Free p may m) (n : NodeId)
    {field : String × List Declaration} (hfield : ∀ d ∈ field.2, p.bindings.Knows d) :
    Works p may m (completeField p n detail field) fun _ _ => True := by
  refine (works_ofDeclarations (.of_all hfree fun d => d.2) hfield n false).bind
    fun type m1 h1 htype => ?_
  refine .edit (works_modifyClass fun c hc => ?_)
  simp only [ClassDetail.types, hasAll_append] at hc ⊢
  refine ⟨⟨hc.1.1, fun id hid => ?_⟩, hc.2⟩
  rcases mem_values_insert hid with rfl | hold
  · exact htype
  · exact hc.1.2 id hold

/-- A member that methods give to their objects is added to a class. -/
theorem works_completeMember (hfree : Free p may m) (n : NodeId)
    {field : String × List Declaration} (hfield : ∀ d ∈ field.2, p.bindings.Knows d) :
    Works p may m (completeMember p n detail field) fun _ _ => True := by
  refine .store ?_
  split
  · split
    · exact .ret fun _ => trivial
    · exact works_completeField hfree n hfield
  · exact works_completeField hfree n hfield

/-- The members of a class are added. -/
theorem works_completeFields (hfree : Free p may m) (n : NodeId) :
    Works p may m (completeFields p n detail) fun _ _ => True := by
  unfold completeFields
  extract_lets symbols
  have hsymbols : ∀ field ∈ symbols, ∀ d ∈ field.2, p.bindings.Knows d := by
    intro field hfield d hd
    dsimp only [symbols] at hfield
    split at hfield
    · rename_i scope hscope
      obtain ⟨i, -, hscope⟩ := Option.bind_eq_some_iff.1 hscope
      exact .listed hscope ⟨field, hfield, hd⟩
    · cases hfield
  refine (Works.forM fun field hfield m' hm' => works_completeField (hfree.mono hm') n
    (hsymbols field hfield)).bind fun _ m1 h1 _ => ?_
  refine (Works.forM fun field hfield m' hm' => works_completeMember (hfree.mono (h1.trans hm')) n
    fun d hd => Bindings.knows_of_membersOf hfield hd).bind fun _ m2 h2 _ => ?_
  exact .edit (works_modifyClass fun c hc => hc)

/-- A decorator is applied to a class. -/
theorem works_decorateClass (hfree : Free p may m) {decorated : TypeId}
    (hdecorated : decorated.In m.store) (expression : NodeId) :
    Works p may m (decorateClass p detail decorated expression) TypeId.In := by
  refine (works_typeOf (.of_all hfree fun _ => trivial) expression).bind fun type m1 h1 htype => ?_
  split
  · refine (Works.edit ?_).bind fun _ m2 h2 _ => .ret fun _ => hdecorated.mono (h1.trans h2).store
    exact works_modifyClass fun c hc => hc
  · exact works_applied (hfree.mono h1) htype (hdecorated.mono h1.store)

/-- A class definition has types. Keeping them for the first time takes energy, and then anything
may be asked. -/
theorem works_newClass (hdeeper : Deeper p may m) {n : NodeId} (hn : n < p.arena.size)
    (hopen : m.classes.lookup n = none) (decorators arguments : List NodeId) (body : NodeId) :
    Works p may m (newClass p n decorators arguments body) DefinitionTypes.In := by
  unfold newClass
  extract_lets name
  refine (Works.onStore (works_addClass hasAll_nil)).bind fun detail m1 h1 hdetail => ?_
  refine (Works.onStore (works_classType_in hdetail)).bind fun classType m2 h2 hclassType => ?_
  refine .modify (fun hm => ⟨sound_keepClass hm ⟨hclassType, hclassType⟩, grows_keepClass n _⟩) ?_
  -- From here on the class is kept, which takes energy, so anything may be asked.
  have hfree : Free p may { m2 with classes := (n, ⟨classType, classType⟩) :: m2.classes } :=
    hdeeper.free (((h1.trans h2).trans (grows_keepClass n _)).energy_lt_of_class hn hopen
      (by simp))
  refine (works_heritage hfree arguments).bind fun h m3 h3 hh => ?_
  refine (works_completeHeritage (hclassType.mono h3.store) hh body).bind fun _ m4 h4 _ => ?_
  have h24 := h3.trans h4
  refine (works_completeFields (hfree.mono h24) n).bind fun _ m5 h5 _ => ?_
  have h25 := h24.trans h5
  have hclassType' : classType.In m5.store := hclassType.mono h25.store
  have hdecorators : ∀ expressions : List NodeId, Works p may m5
      (expressions.foldlM (decorateClass p detail) classType) TypeId.In := fun expressions =>
    .foldlM hclassType' fun decorated expression _ m' hm' hdecorated =>
      works_decorateClass (hfree.mono (h25.trans hm')) hdecorated expression
  refine (hdecorators _).bind fun decorated m6 h6 hdecorated => ?_
  have hkept : DefinitionTypes.In ⟨classType, decorated⟩ m6.store :=
    ⟨hclassType'.mono h6.store, hdecorated⟩
  exact .modify (fun hm => ⟨sound_keepClass hm hkept, grows_keepClass n _⟩) (.ret fun _ => hkept)

/-- A class definition has types. The rule may ask anything if less energy is left. -/
theorem works_classDef (hdeeper : Deeper p may m) (n : NodeId) :
    Works p may m (classDef p n) fun t s => ∀ types ∈ t, types.In s := by
  refine .get ?_
  split
  · rename_i types htypes
    refine .ret fun hm _ ht => ?_
    cases ht
    exact hm.classes _ (mem_of_lookup htypes)
  · rename_i hopen
    split
    · rename_i hform
      have hn := Arena.lt_size_of_form? hform
      refine (works_newClass hdeeper hn hopen _ _ _).bind fun types _ _ htypes => ?_
      refine .ret fun _ _ ht => ?_
      cases ht
      exact htypes
    · exact .ret fun _ => nofun

/-! ## Functions -/

/-- The types of a function may be kept. -/
theorem sound_keepFunction {n : NodeId} {types : DefinitionTypes} (hm : m.Sound p.builtins)
    (htypes : types.In m.store) :
    Memory.Sound p.builtins { m with functions := (n, types) :: m.functions } :=
  { hm with functions := List.forall_mem_cons.2 ⟨htypes, hm.functions⟩ }

/-- The class whose body a function definition is in is there. -/
theorem works_ownerOf (hclass : Allows may m Query.classDef) (n : NodeId) :
    Works p may m (ownerOf p n) fun d s => ∀ id ∈ d, id.In s := by
  unfold ownerOf
  split
  · exact .ret fun _ => nofun
  · refine (works_askClassDef hclass _).bind fun types m1 h1 htypes => ?_
    split
    · exact .store (.ret fun hm1 id hid => hm1.store.classIdOf?_in hid)
    · exact .ret fun _ => nofun

/-- A function has properties. -/
theorem works_functionFlags (hnode : Allows may m Query.node) (n : NodeId) (name : String)
    (decorators : List NodeId) (isAsync : Bool) (owner : Option ClassId) :
    Works p may m (functionFlags p n name decorators isAsync owner) fun _ _ => True := by
  have hflags : ∀ expressions : List NodeId, Works p may m
      (expressions.foldlM (markFunction p) Flags.empty) fun _ _ => True := fun expressions =>
    .foldlM trivial fun flags expression _ m' hm' _ =>
      (works_typeOf (hnode.mono hm') expression).bind fun type m1 _ _ =>
        .store (.ret fun _ => trivial)
  exact (hflags _).bind fun flags m1 _ _ => .ret fun _ => trivial

/-- The receiver of a method has a type. -/
theorem works_receiverType (flags : Flags FunctionFlag) {owner : ClassId}
    (howner : owner.In m.store) :
    Works p may m (receiverType flags owner) TypeId.In := by
  unfold receiverType
  split
  · exact .onStore (works_classType_in howner)
  · exact .onStore (works_instanceOf_in howner)

/-- A parameter has a type. -/
theorem works_parameterDefinition (hfree : Free p may m) (flags : Flags FunctionFlag)
    {owner : Option ClassId} (howner : ∀ d ∈ owner, d.In m.store) (place : Nat) (n : NodeId) :
    Works p may m (Definitions.parameter p flags owner place n)
      fun t s => ∀ found ∈ t, found.1.type.In s := by
  unfold Definitions.parameter
  split
  · rename_i category name hint defaultValue hform
    extract_lets result next
    have hnext : ∀ m1, m.Grows m1 → Works p may m1 (next ⟨⟩)
        fun t s => ∀ found ∈ t, found.1.type.In s := by
      intro m1 h1
      dsimp only [next]
      -- A parameter with a hint, a receiver, or neither.
      split
      · refine (works_askHint (.of_all (hfree.mono h1) fun _ => trivial) _).bind
          fun type _ _ htype => .ret fun _ _ ht => ?_
        cases ht
        exact htype
      · rename_i owner' howner'
        split at howner'
        · refine (works_receiverType flags ((howner _ howner').mono h1.store)).bind
            fun type _ _ htype => .ret fun _ _ ht => ?_
          cases ht
          exact htype
        · cases howner'
      · refine .ret fun hm1 _ ht => ?_
        cases ht
        have hunknown : TypeId.unknown.In m1.store := hm1.store.basic_in (by decide)
        exact hunknown
    split
    · exact (works_typeOf (.of_all hfree fun _ => trivial) _).bind fun _ m1 h1 _ => hnext m1 h1
    · exact hnext m (.refl m)
  · exact .ret fun _ => nofun

/-- A function is completed with its parameters and the type it is said to return. -/
theorem works_completeSignature (hfree : Free p may m) (detail : FunctionId)
    (flags : Flags FunctionFlag) {owner : Option ClassId} (howner : ∀ d ∈ owner, d.In m.store)
    (parameters : List NodeId) (returnHint : Option NodeId) :
    Works p may m (completeSignature p detail flags owner parameters returnHint)
      fun _ _ => True := by
  unfold completeSignature
  extract_lets receiver
  have hreceiver : ∀ d ∈ receiver, d.In m.store := by
    intro d hd
    simp only [receiver] at hd
    split at hd
    · cases hd
    · exact howner d hd
  refine (Works.filterMapM .mono fun place _ m' hm' => works_parameterDefinition (hfree.mono hm')
    flags (fun d hd => (hreceiver d hd).mono hm'.store) _ _).bind fun found m1 h1 hfound => ?_
  extract_lets next
  have hnext : ∀ declared m2, m1.Grows m2 → (∀ id ∈ declared, id.In m2.store) →
      Works p may m2 (next declared) fun _ _ => True := by
    intro declared m2 h2 hdeclared
    refine .edit (works_modifyFunction fun f _ => hasAll_append.2 ⟨fun id hid => ?_, ?_⟩)
    · simp only [List.map_map, List.mem_map, Function.comp_apply] at hid
      obtain ⟨pair, hpair, rfl⟩ := hid
      exact (hfound pair hpair).mono h2.store
    · intro id hid
      exact hdeclared id (Option.mem_toList.1 hid)
  split
  · refine (works_askHint (.of_all (hfree.mono h1) fun _ => trivial) _).bind
      fun type m2 h2 htype => ?_
    exact hnext (some type) m2 h2 (forall_mem_some htype)
  · exact hnext none m1 (.refl m1) nofun

/-- The property that a decorator belongs to is there. -/
theorem works_accessorOwner? (hfree : Free p may m) (expression : NodeId) :
    Works p may m (accessorOwner? p expression) fun t s => ∀ id ∈ t, id.In s := by
  have howner : ∀ left : NodeId, Works p may m (do
      let owner ← typeOf left
      return if ((← get).getters.lookup owner).isSome then some owner else none)
      fun t s => ∀ id ∈ t, id.In s := by
    intro left
    refine (works_typeOf (.of_all hfree fun _ => trivial) left).bind
      fun owner m1 _ hin => .get (.ret fun _ => ?_)
    split
    · exact forall_mem_some hin
    · exact nofun
  unfold accessorOwner?
  split
  · split
    · exact howner _
    · exact howner _
    · exact howner _
    · exact .ret fun _ => nofun
  · exact .ret fun _ => nofun

/-- A property may be made. -/
theorem works_newProperty {detail : FunctionId} (hdetail : detail.In m.store) :
    Works p may m (newProperty p detail) TypeId.In := by
  refine .intro fun hm => ?_
  have hvalue : m.store.Works (·.addValue (.nominal p.builtins.property none none)) TypeId.In :=
    works_addValue hasAll_nil hm.builtins.property
  refine (Works.onStore hvalue).bind fun property m1 h1 hproperty => ?_
  refine .modify (fun hm1 => ⟨{ hm1 with getters := ?_ }, { Memory.Grows.refl m1 with }⟩)
    (.ret fun _ => hproperty)
  exact List.forall_mem_cons.2 ⟨⟨hproperty, hdetail.mono h1.store⟩, hm1.getters⟩

/-- A decorator is applied to a function. -/
theorem works_decorateFunction (hfree : Free p may m) {detail : FunctionId}
    (hdetail : detail.In m.store) {decorated : TypeId} (hdecorated : decorated.In m.store)
    (expression : NodeId) :
    Works p may m (decorateFunction p detail decorated expression) TypeId.In := by
  unfold decorateFunction
  extract_lets b
  refine (works_typeOf (.of_all hfree fun _ => trivial) expression).bind
    fun type m1 h1 htype => .store ?_
  split
  · exact works_newProperty (hdetail.mono h1.store)
  · refine (works_accessorOwner? (hfree.mono h1) expression).bind fun found m2 h2 hfound => ?_
    have hdecorated' := hdecorated.mono (h1.trans h2).store
    split
    · exact .ret fun _ => hfound _ rfl
    · refine .store ?_
      split
      · exact .ret fun _ => hdecorated'
      · exact works_applied ((hfree.mono h1).mono h2) (htype.mono h2.store) hdecorated'

/-- The overloads that a function definition follows are there. -/
theorem works_previousOverloads? (hfree : Free p may m) (n : NodeId) (name : String) :
    Works p may m (previousOverloads? p n name) fun t s => ∀ ids ∈ t, s.HasAll ids := by
  unfold previousOverloads?
  split
  · exact .ret fun _ => nofun
  · refine (works_askFunction (.of_all hfree fun _ => trivial) _).bind fun found m1 h1 hfound => ?_
    split
    · exact .ret fun _ => nofun
    · rename_i types
      refine .intro fun hm1 => .store ?_
      split
      · rename_i overloads hshape
        refine .ret fun _ ids hids => ?_
        split at hids
        · split at hids
          · cases hids
            exact hm1.store.hasAll_parts hshape
          · cases hids
        · cases hids
      · refine .ret fun _ ids hids => ?_
        split at hids
        · cases hids
          exact hasAll_cons.2 ⟨(hfound types rfl).2, hasAll_nil⟩
        · cases hids
      · exact .ret fun _ => nofun

/-- A function is joined with the overloads it follows. -/
theorem works_joined (hfree : Free p may m) (n : NodeId) (name : String) {decorated : TypeId}
    (hdecorated : decorated.In m.store) : Works p may m (joined p n name decorated) TypeId.In := by
  refine (works_previousOverloads? hfree n name).bind fun found m1 h1 hfound => ?_
  have hdecorated' := hdecorated.mono h1.store
  split
  · exact .onStore (works_addValue (hasAll_append.2
      ⟨hfound _ rfl, hasAll_cons.2 ⟨hdecorated', hasAll_nil⟩⟩) trivial)
  · exact .ret fun _ => hdecorated'

/-- A function definition has types. The types of its decorators are asked for first; keeping its
types for the first time takes energy, and then anything may be asked. -/
theorem works_newFunction (hdeeper : Deeper p may m) (hnode : Allows may m Query.node) {n : NodeId}
    (hn : n < p.arena.size) (hopen : m.functions.lookup n = none) (decorators : List NodeId)
    (isAsync : Bool) (parameters : List NodeId) (returnHint : Option NodeId)
    {owner : Option ClassId} (howner : ∀ d ∈ owner, d.In m.store) :
    Works p may m (newFunction p n decorators isAsync parameters returnHint owner)
      DefinitionTypes.In := by
  unfold newFunction
  extract_lets name
  refine (works_functionFlags hnode n name decorators isAsync owner).bind fun flags m1 h1 _ => ?_
  refine (Works.onStore (works_addFunction hasAll_nil)).bind fun detail m2 h2 hdetail => ?_
  have hvalue : m2.store.Works (·.addValue (.function detail none none)) TypeId.In :=
    works_addValue hasAll_nil hdetail
  refine (Works.onStore hvalue).bind fun functionType m3 h3 hfunctionType => ?_
  refine .modify (fun hm => ⟨sound_keepFunction hm ⟨hfunctionType, hfunctionType⟩,
    grows_keepFunction n _⟩) ?_
  have h13 := (h1.trans h2).trans h3
  -- From here on the function is kept, which takes energy, so anything may be asked.
  have hfree : Free p may { m3 with
      functions := (n, ⟨functionType, functionType⟩) :: m3.functions } :=
    hdeeper.free ((h13.trans (grows_keepFunction n _)).energy_lt_of_function hn hopen (by simp))
  refine (works_completeSignature hfree detail flags (fun d hd => (howner d hd).mono h13.store)
    parameters returnHint).bind fun _ m4 h4 _ => ?_
  have hdetail' : detail.In m4.store := (hdetail.mono h3.store).mono h4.store
  have hfunctionType' : functionType.In m4.store := hfunctionType.mono h4.store
  have hdecorators : ∀ expressions : List NodeId, Works p may m4
      (expressions.foldlM (decorateFunction p detail) functionType) TypeId.In := fun expressions =>
    .foldlM hfunctionType' fun decorated expression _ m' hm' hdecorated =>
      works_decorateFunction (hfree.mono (h4.trans hm')) (hdetail'.mono hm'.store) hdecorated
        expression
  refine (hdecorators _).bind fun decorated m5 h5 hdecorated => ?_
  refine (works_joined (hfree.mono (h4.trans h5)) n name hdecorated).bind
    fun joined m6 h6 hjoined => ?_
  have hkept : DefinitionTypes.In ⟨functionType, joined⟩ m6.store :=
    ⟨(hfunctionType'.mono h5.store).mono h6.store, hjoined⟩
  exact .modify (fun hm => ⟨sound_keepFunction hm hkept, grows_keepFunction n _⟩)
    (.ret fun _ => hkept)

/-- A function definition has types. The rule may ask for the class around it and for the types of
nodes, and anything if less energy is left. -/
theorem works_function (hdeeper : Deeper p may m) (hnode : Allows may m Query.node)
    (hclass : Allows may m Query.classDef) (n : NodeId) :
    Works p may m (Definitions.function p n) fun t s => ∀ types ∈ t, types.In s := by
  have hcached : ∀ {m1 : Memory} {types : DefinitionTypes}, m1.functions.lookup n = some types →
      Works p may m1 (pure (some types)) fun t s => ∀ types ∈ t, types.In s := by
    intro m1 types htypes
    refine .ret fun hm _ ht => ?_
    cases ht
    exact hm.functions _ (mem_of_lookup htypes)
  refine .get ?_
  split
  · exact hcached ‹_›
  · split
    · rename_i hform
      refine (works_ownerOf hclass n).bind fun owner m1 h1 howner => .get ?_
      split
      · exact hcached ‹_›
      · rename_i hopen
        refine (works_newFunction (hdeeper.mono h1) (hnode.mono h1)
          (Arena.lt_size_of_form? hform) hopen _ _ _ _ howner).bind fun types _ _ htypes =>
            .ret fun _ _ ht => ?_
        cases ht
        exact htypes
    · exact .ret fun _ => nofun

end Evaluation

end TypeProbe
