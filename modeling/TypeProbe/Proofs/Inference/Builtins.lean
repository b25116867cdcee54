import TypeProbe.Proofs.Types.Values

/-!
# The modules that are known beforehand are sound

Each step in putting a module together is told by the classes and types that it takes for granted
and those that are there after it (`Drafting.Leaves`).
-/

open TypeProbe.TypeStore

namespace TypeProbe

/-- A module that is put together soundly, with the given classes and types among what is there. -/
structure ModuleDraft.Holds (ds : List ClassId) (ts : List TypeId) (d : ModuleDraft) : Prop where
  /-- The store is sound. -/
  store : d.store.Sound
  /-- The class of its classes is there. -/
  metaclass : ∀ id ∈ d.metaclass, id.In d.store
  /-- Its members are there. -/
  members : d.store.HasAll d.members.values
  /-- The given classes are there. -/
  classes : ∀ id ∈ ds, id.In d.store
  /-- The given types are there. -/
  types : d.store.HasAll ts

namespace Drafting

variable {α β : Type} {ds : List ClassId} {ts : List TypeId}

/-- A step that leaves the given classes and types, where those it takes for granted are there. -/
def Leaves (ds : List ClassId) (ts : List TypeId) (e : Drafting α) (ds' : α → List ClassId)
    (ts' : α → List TypeId) : Prop :=
  ∀ d : ModuleDraft, d.Holds ds ts → (e d).2.Holds (ds' (e d).1) (ts' (e d).1)

namespace Leaves

variable {e : Drafting α} {ds' : α → List ClassId} {ts' : α → List TypeId}

/-- A result that is given at once leaves what was there. -/
theorem ret {a : α} (hds : ds' a ⊆ ds) (hts : ts' a ⊆ ts) : Leaves ds ts (pure a) ds' ts' :=
  fun _ hd => { hd with
    classes := fun id hid => hd.classes id (hds hid)
    types := fun id hid => hd.types id (hts hid) }

/-- One step after another. -/
theorem bind {next : α → Drafting β} {ds'' : β → List ClassId} {ts'' : β → List TypeId}
    (h : Leaves ds ts e ds' ts') (hnext : ∀ a, Leaves (ds' a) (ts' a) (next a) ds'' ts'') :
    Leaves ds ts (e >>= next) ds'' ts'' := fun d hd => hnext _ _ (h d hd)

/-- Less may be left. -/
theorem weaken {ds'' : α → List ClassId} {ts'' : α → List TypeId} (h : Leaves ds ts e ds' ts')
    (hds : ∀ a, ds'' a ⊆ ds' a) (hts : ∀ a, ts'' a ⊆ ts' a) : Leaves ds ts e ds'' ts'' := by
  intro d hd
  exact ret (hds _) (hts _) _ (h d hd)

/-- The draft may be looked at, and types may be added that are there. -/
theorem get {next : ModuleDraft → Drafting β} {ds'' : β → List ClassId} {ts'' : β → List TypeId}
    (more : ModuleDraft → List TypeId)
    (hmore : ∀ d : ModuleDraft, d.Holds ds ts → d.store.HasAll (more d))
    (h : ∀ d, Leaves ds (more d ++ ts) (next d) ds'' ts'') :
    Leaves ds ts (MonadState.get >>= next) ds'' ts'' := fun d hd =>
  h d d { hd with types := hasAll_append.2 ⟨hmore d hd, hd.types⟩ }

/-- What works on stores may be done to the store. -/
theorem onStore {work : TypeStore → α × TypeStore} {post : α → TypeStore → Prop}
    (h : ∀ s : TypeStore, (∀ id ∈ ds, id.In s) → s.HasAll ts → s.Works work post)
    (hpost : ∀ a s, post a s → (∀ id ∈ ds, id.In s) → s.HasAll ts →
      (∀ id ∈ ds' a, id.In s) ∧ s.HasAll (ts' a)) :
    Leaves ds ts (Drafting.onStore work) ds' ts' := by
  intro d hd
  obtain ⟨hsound, hgrows, hresult⟩ := h d.store hd.classes hd.types hd.store
  obtain ⟨hclasses, htypes⟩ := hpost _ _ hresult (fun id hid => (hd.classes id hid).mono hgrows)
    (hd.types.mono hgrows)
  exact {
    store := hsound
    metaclass := fun id hid => (hd.metaclass id hid).mono hgrows
    members := hd.members.mono hgrows
    classes := hclasses
    types := htypes }

/-- A class that is made is there. -/
theorem newClass {work : TypeStore → ClassId × TypeStore}
    (h : ∀ s : TypeStore, (∀ id ∈ ds, id.In s) → s.HasAll ts → s.Works work fun d s => d.In s) :
    Leaves ds ts (Drafting.onStore work) (· :: ds) fun _ => ts :=
  onStore h fun _ _ ha hds hts => ⟨List.forall_mem_cons.2 ⟨ha, hds⟩, hts⟩

/-- A type that is made is there. -/
theorem newType {work : TypeStore → TypeId × TypeStore}
    (h : ∀ s : TypeStore, (∀ id ∈ ds, id.In s) → s.HasAll ts → s.Works work TypeId.In) :
    Leaves ds ts (Drafting.onStore work) (fun _ => ds) (· :: ts) :=
  onStore h fun _ _ ha hds hts => ⟨hds, hasAll_cons.2 ⟨ha, hts⟩⟩

/-- A change of a store leaves what was there. -/
theorem change {work : TypeStore → Unit × TypeStore}
    (h : ∀ s : TypeStore, (∀ id ∈ ds, id.In s) → s.HasAll ts → s.Works work fun _ _ => True) :
    Leaves ds ts (Drafting.onStore work) (fun _ => ds) fun _ => ts :=
  onStore h fun _ _ _ hds hts => ⟨hds, hts⟩

/-- A step for each element of a list. -/
theorem forIn {as : List β} {f : β → PUnit → Drafting (ForInStep PUnit)}
    (h : ∀ a ∈ as, Leaves ds ts (f a ⟨⟩) (fun _ => ds) fun _ => ts) :
    Leaves ds ts (forIn as ⟨⟩ f) (fun _ => ds) fun _ => ts := by
  induction as with
  | nil => exact ret (List.Subset.refl _) (List.Subset.refl _)
  | cons a as ih =>
    rw [List.forIn_cons]
    refine (h a List.mem_cons_self).bind fun r => ?_
    cases r with
    | done b => exact ret (List.Subset.refl _) (List.Subset.refl _)
    | yield b => exact ih fun a ha => h a (List.mem_cons_of_mem _ ha)

/-- A step for each element of a list, with the results. -/
theorem mapM {γ : Type} {as : List β} {f : β → Drafting γ}
    (h : ∀ a ∈ as, Leaves ds ts (f a) (fun _ => ds) fun _ => ts) :
    Leaves ds ts (as.mapM f) (fun _ => ds) fun _ => ts := by
  induction as with
  | nil => exact ret (List.Subset.refl _) (List.Subset.refl _)
  | cons a as ih =>
    rw [List.mapM_cons]
    refine (h a List.mem_cons_self).bind fun c => ?_
    refine (ih fun a ha => h a (List.mem_cons_of_mem _ ha)).bind fun cs => ?_
    exact ret (List.Subset.refl _) (List.Subset.refl _)

end Leaves

/-! ## Classes -/

/-- The plain types of classes may be made. -/
theorem leaves_classTypes {bases : List ClassId} (h : bases ⊆ ds) :
    Leaves ds ts (bases.mapM fun base => onStore (·.classType base)) (fun _ => ds) (· ++ ts) := by
  induction bases generalizing ts with
  | nil => exact .ret (List.Subset.refl _) (by simp)
  | cons base bases ih =>
    rw [List.mapM_cons]
    have hbase := h List.mem_cons_self
    refine (Leaves.newType fun s hds _ => works_classType_in (hds base hbase)).bind fun type => ?_
    refine (ih fun d hd => h (List.mem_cons_of_mem _ hd)).bind fun types => ?_
    exact .ret (List.Subset.refl _) (by simp)

/-- A member may be given to the module. -/
theorem leaves_define (name : String) {type : TypeId} (h : type ∈ ts) :
    Leaves ds ts (define name type) (fun _ => ds) fun _ => ts := by
  intro d hd
  refine { hd with members := fun id hid => ?_ }
  rcases mem_values_insert hid with rfl | hold
  · exact hd.types id h
  · exact hd.members id hold

/-- The ancestors of classes are there. -/
theorem hasAll_ancestors {s : TypeStore} (hs : s.Sound) (bases : List ClassId) :
    s.HasAll ((bases.filterMap s.class?).flatMap (·.mro)) := by
  intro id hid
  obtain ⟨c, hc, hmro⟩ := List.mem_flatMap.1 hid
  obtain ⟨base, -, hbase⟩ := List.mem_filterMap.1 hc
  exact hs.classes base c hbase id (by simp [ClassDetail.types, hmro])

/-- A class may be added to bases that are there. -/
theorem leaves_classWith (flags : List ClassFlag) (name : String) {bases : List ClassId}
    (h : bases ⊆ ds) :
    Leaves ds ts (classWith flags name bases) (· :: ds) fun _ => ts := by
  refine .get (fun d => d.metaclass.toList)
    (fun d hd id hid => hd.metaclass id (Option.mem_toList.1 hid)) fun draft => ?_
  extract_lets detail
  refine (Leaves.newClass fun s _ hts => works_addClass ?_).bind fun id => ?_
  · simpa [ClassDetail.types, detail, ClassDetail.named, Named.values] using (hasAll_append.1 hts).1
  refine (Leaves.newType fun s hds _ => works_classType_in (hds id List.mem_cons_self)).bind
    fun type => ?_
  refine (leaves_classTypes fun d hd => List.mem_cons_of_mem _ (h hd)).bind fun baseTypes => ?_
  refine .get (fun d => (bases.filterMap d.store.class?).flatMap (·.mro))
    (fun d hd => hasAll_ancestors hd.store bases) fun d => ?_
  extract_lets store ancestors mro
  refine (Leaves.change fun s _ hts => works_modifyClass fun c hc => ?_).bind fun _ => ?_
  · have hall := hts
    simp only [hasAll_append, hasAll_cons] at hall
    obtain ⟨hancestors, hbaseTypes, htype, -⟩ := hall
    simp only [ClassDetail.types, hasAll_append] at hc ⊢
    refine ⟨⟨⟨⟨⟨hbaseTypes, fun t ht => ?_⟩, hc.1.1.1.2⟩, hc.1.1.2⟩, hc.1.2⟩, hc.2⟩
    rcases mem_foldl_insertNew _ ht with hfirst | hancestor
    · exact List.mem_singleton.1 hfirst ▸ htype
    · exact hancestors t hancestor
  · refine (leaves_define name (by simp)).bind fun _ => ?_
    exact .ret (List.Subset.refl _) fun t ht => by simp [ht]

/-- A class may be added. -/
theorem leaves_plainClass (name : String) {bases : List ClassId} (h : bases ⊆ ds) :
    Leaves ds ts (plainClass name bases) (· :: ds) fun _ => ts := leaves_classWith [] name h

/-- A form of type hints may be added. -/
theorem leaves_specialForm (name : String) :
    Leaves ds ts (specialForm name) (· :: ds) fun _ => ts :=
  leaves_classWith _ name (List.nil_subset _)

/-- A class may be given a further name. -/
theorem leaves_secondName (name : String) {target : ClassId} (h : target ∈ ds) :
    Leaves ds ts (secondName name target) (fun _ => ds) fun _ => ts := by
  refine (Leaves.newType fun s hds _ => works_classType_in (hds target h)).bind fun type => ?_
  exact (leaves_define name List.mem_cons_self).weaken (fun _ => List.Subset.refl _)
    fun _ => List.subset_cons_self _ _

/-- A class of classes may be chosen. -/
theorem leaves_metaclass {type : TypeId} (h : type ∈ ts) :
    Leaves ds ts (modify fun d => { d with metaclass := some type }) (fun _ => ds) fun _ => ts :=
  fun _ hd => { hd with metaclass := forall_mem_some (hd.types type h) }

/-! ## Functions -/

/-- A function type may be added. -/
theorem leaves_functionType (name fullName : String) {parameters : List Parameter}
    {returns : TypeId} (hparameters : parameters.map (·.type) ⊆ ts) (hreturns : returns ∈ ts) :
    Leaves ds ts (functionType name fullName parameters returns) (fun _ => ds) (· :: ts) := by
  refine .get (fun _ => []) (fun _ _ => hasAll_nil) fun draft => ?_
  have hfunction : ∀ s : TypeStore, s.HasAll ts → s.HasAll (FunctionDetail.types
      ⟨name, fullName, draft.name, Flags.empty, parameters, some returns, none⟩) :=
    fun s hts => hasAll_append.2 ⟨fun id hid => hts id (hparameters hid),
      hasAll_cons.2 ⟨hts returns hreturns, hasAll_nil⟩⟩
  -- Both steps are one on the store: the handle of the function is no class and no type.
  let work : StateM TypeStore TypeId := do
    let detail ← fun s : TypeStore => s.addFunction
      ⟨name, fullName, draft.name, Flags.empty, parameters, some returns, none⟩
    fun s : TypeStore => s.addValue (.function detail none none)
  have hwork : Leaves ds ts (Drafting.onStore work) (fun _ => ds) (· :: ts) := by
    refine .newType fun s _ hts => (works_addFunction (hfunction s hts)).bind
      fun detail s' _ hdetail => ?_
    have hvalue : s'.Works (·.addValue (.function detail none none)) TypeId.In :=
      works_addValue hasAll_nil hdetail
    exact hvalue
  exact hwork

/-- The types of parameters that are made of names and types. -/
theorem map_type_parameter (hasDeclaredType : Bool) (parameters : List (String × TypeId)) :
    (parameters.map (parameter hasDeclaredType)).map (·.type) = parameters.map (·.2) := by
  rw [List.map_map]
  rfl

/-- A method may be added to a class. -/
theorem leaves_method (name : String) {owner : ClassId} {parameters : List (String × TypeId)}
    {returns : TypeId} (howner : owner ∈ ds) (hparameters : parameters.map (·.2) ⊆ ts)
    (hreturns : returns ∈ ts) :
    Leaves ds ts (method owner name parameters returns) (fun _ => ds) fun _ => ts := by
  refine .get (fun _ => []) (fun _ _ => hasAll_nil) fun draft => ?_
  extract_lets ownerName
  refine (Leaves.newType fun s hds _ => works_instanceOf_in (hds owner howner)).bind
    fun receiver => ?_
  refine (leaves_functionType name _ ?_ (List.mem_cons_of_mem _ hreturns)).bind fun type => ?_
  · rw [List.map_cons, map_type_parameter]
    exact List.cons_subset_cons _ hparameters
  · refine (Leaves.change fun s _ hts => works_modifyClass fun c hc => ?_).weaken
      (fun _ => List.Subset.refl _) fun _ t ht => by simp [ht]
    simp only [ClassDetail.types, hasAll_append] at hc ⊢
    refine ⟨⟨hc.1.1, fun id hid => ?_⟩, hc.2⟩
    rcases mem_values_insert hid with rfl | hold
    · exact hts _ List.mem_cons_self
    · exact hc.1.2 id hold

/-- A function may be added to the module. -/
theorem leaves_function (name : String) {parameters : List (String × TypeId)} {returns : TypeId}
    (hparameters : parameters.map (·.2) ⊆ ts) (hreturns : returns ∈ ts) :
    Leaves ds ts (function name parameters returns) (fun _ => ds) (· :: ts) := by
  refine .get (fun _ => []) (fun _ _ => hasAll_nil) fun draft => ?_
  extract_lets fullName
  refine (leaves_functionType name fullName ?_ hreturns).bind fun type => ?_
  · rw [map_type_parameter]
    exact hparameters
  · refine (leaves_define name List.mem_cons_self).bind fun _ => ?_
    exact .ret (List.Subset.refl _) (List.Subset.refl _)

/-- A function that only marks definitions may be added. -/
theorem leaves_marker (m : Marker) (h : TypeId.unknown ∈ ts) :
    Leaves ds ts (marker m) (fun _ => ds) fun _ => ts := by
  refine (leaves_function _ (by simpa using h) h).bind fun type => ?_
  exact .ret (List.Subset.refl _) (List.subset_cons_self _ _)

end Drafting

/-! ## Modules -/

namespace Builtins

open Drafting

/-- The classes that types are made of. -/
def classes (b : Builtins) : List ClassId :=
  [b.object, b.metaclass, b.int, b.float, b.complex, b.text, b.bytes, b.bool, b.list, b.dictionary,
    b.set, b.tuple, b.slice, b.ellipsis, b.property, b.baseException]

/-- The types that the modules take for granted. -/
def given : List TypeId := [.noneValue, .unknown]

/-- The classes and functions that need no import may be put together. -/
theorem leaves_core :
    Leaves [] given core (fun r => r.1.classes) (fun r => [r.2]) := by
  unfold core
  refine (leaves_plainClass _ (by simp)).bind fun object => ?_
  refine (leaves_plainClass _ (by simp)).bind fun metaclass => ?_
  refine (Leaves.newType fun s hds _ => works_classType_in (hds metaclass (by simp))).bind
    fun metaclassType => ?_
  -- The two classes that come before there is a metaclass get it now.
  refine (Leaves.forIn fun root _ => ?_).bind fun _ => ?_
  · refine (Leaves.change fun s _ hts => works_modifyClass fun c hc => ?_).bind fun _ =>
      .ret (List.Subset.refl _) (List.Subset.refl _)
    have htype := hts metaclassType List.mem_cons_self
    simp only [ClassDetail.types, hasAll_append] at hc ⊢
    exact ⟨⟨⟨hc.1.1.1, hasAll_cons.2 ⟨htype, hasAll_nil⟩⟩, hc.1.2⟩, hc.2⟩
  refine (leaves_metaclass List.mem_cons_self).bind fun _ => ?_
  refine (leaves_plainClass _ (by simp)).bind fun int => ?_
  refine (leaves_plainClass _ (by simp)).bind fun float => ?_
  refine (leaves_plainClass _ (by simp)).bind fun complex => ?_
  refine (leaves_plainClass _ (by simp)).bind fun text => ?_
  refine (leaves_plainClass _ (by simp)).bind fun bytes => ?_
  refine (leaves_plainClass _ (by simp)).bind fun bool => ?_
  refine (leaves_plainClass _ (by simp)).bind fun list => ?_
  refine (leaves_plainClass _ (by simp)).bind fun dictionary => ?_
  refine (leaves_plainClass _ (by simp)).bind fun set => ?_
  refine (leaves_classWith _ _ (by simp)).bind fun tuple => ?_
  refine (leaves_plainClass _ (by simp)).bind fun slice => ?_
  refine (leaves_plainClass _ (by simp)).bind fun ellipsis => ?_
  refine (leaves_plainClass _ (by simp)).bind fun range => ?_
  refine (leaves_classWith _ _ (by simp)).bind fun property => ?_
  refine (leaves_plainClass _ (by simp)).bind fun staticMethod => ?_
  refine (leaves_plainClass _ (by simp)).bind fun classMethod => ?_
  refine (leaves_plainClass _ (by simp)).bind fun baseException => ?_
  refine (leaves_plainClass _ (by simp)).bind fun exception => ?_
  refine (Leaves.forIn fun name _ => ?_).bind fun _ => ?_
  · refine (leaves_plainClass name ?_).bind fun _ => ?_
    · simp
    · exact .ret (List.subset_cons_self _ _) (List.Subset.refl _)
  -- The types that methods and functions take and return.
  refine (Leaves.newType fun s hds _ => works_instanceOf_in (hds int (by simp))).bind
    fun intType => ?_
  refine (Leaves.newType fun s hds _ => works_instanceOf_in (hds text (by simp))).bind
    fun textType => ?_
  refine (Leaves.newType fun s hds _ => works_instanceOf_in (hds bool (by simp))).bind
    fun boolType => ?_
  refine (Leaves.newType fun s hds _ => works_instanceOf_in (hds object (by simp))).bind
    fun objectType => ?_
  refine (Leaves.newType fun s hds hts => works_specializedInstance (hds list (by simp))
    (hasAll_cons.2 ⟨hts textType (by simp), hasAll_nil⟩)).bind fun textsType => ?_
  iterate 10
    refine (leaves_method _ (by simp) (by simp) (by simp [given])).bind fun _ => ?_
  iterate 5
    refine (leaves_function _ (by simp) (by simp [given])).bind fun _ => ?_
  exact .ret (by simp [classes]) (by simp)

/-- The classes that types are made of, those of type hints among them. -/
def allClasses (b : Builtins) : List ClassId := b.coroutine :: b.generator :: b.classes

/-- The forms of type hints may be put together. -/
theorem leaves_hints (b : Builtins) {ts : List TypeId} (h : TypeId.unknown ∈ ts) :
    Leaves b.classes ts (hints b) allClasses fun _ => ts := by
  unfold hints
  refine (leaves_plainClass _ (by simp [classes])).bind fun typeVar => ?_
  refine (leaves_specialForm _).bind fun generic => ?_
  refine (leaves_classWith _ _ (by simp)).bind fun protocol => ?_
  refine (Leaves.forIn fun form _ => ?_).bind fun _ => ?_
  · refine (leaves_specialForm form).bind fun _ => ?_
    exact .ret (List.subset_cons_self _ _) (List.Subset.refl _)
  iterate 4
    refine (leaves_secondName _ (by simp [classes])).bind fun _ => ?_
  refine (leaves_plainClass _ (by simp [classes])).bind fun coroutine => ?_
  refine (leaves_plainClass _ (by simp [classes])).bind fun generator => ?_
  refine (Leaves.mapM fun m _ => leaves_marker m h).bind fun markers => ?_
  exact .ret (by simp [allClasses, classes]) (List.Subset.refl _)

/-- What is needed for classes that are not complete may be put together. -/
theorem leaves_abstractBases (b : Builtins) {ts : List TypeId} (h : TypeId.unknown ∈ ts) :
    Leaves b.allClasses ts (abstractBases b) allClasses fun _ => ts := by
  unfold abstractBases
  refine (leaves_classWith _ _ (by simp [allClasses, classes])).bind fun _ => ?_
  refine (leaves_marker _ h).bind fun marker => ?_
  exact .ret (by simp [allClasses, classes]) (List.Subset.refl _)

end Builtins

/-- A module may be put together in a store. -/
theorem Drafting.works_run {α : Type} {ds : List ClassId} {ts : List TypeId}
    {draft : Drafting α} {ds' : α → List ClassId} {ts' : α → List TypeId}
    (h : Leaves ds ts draft ds' ts') (name : String) {metaclass : Option TypeId} {s : TypeStore}
    (hmetaclass : ∀ id ∈ metaclass, id.In s) (hs : s.Sound) (hds : ∀ id ∈ ds, id.In s)
    (hts : s.HasAll ts) {a : α} {module : TypeId} {s' : TypeStore}
    (hrun : Drafting.run name metaclass draft s = ((a, module), s')) :
    s'.Sound ∧ (∀ id ∈ ds' a, id.In s') ∧ s'.HasAll (module :: ts' a) := by
  have hfinished := h ⟨s, name, metaclass, []⟩ ⟨hs, hmetaclass, nofun, hds, hts⟩
  let finished := (draft ⟨s, name, metaclass, []⟩).2
  have hvalue : finished.store.Works (·.addValue (.module name finished.members)) TypeId.In :=
    works_addValue hfinished.members trivial
  obtain ⟨hsound, hgrows, hmodule⟩ := hvalue hfinished.store
  cases hrun
  exact ⟨hsound, fun id hid => (hfinished.classes id hid).mono hgrows,
    hasAll_cons.2 ⟨hmodule, hfinished.types.mono hgrows⟩⟩

/-- The store without classes is sound. -/
theorem TypeStore.sound_initial : TypeStore.initial.Sound := by
  -- The six types have neither parts nor details.
  have hshape : ∀ id shape, TypeStore.initial.shape? id = some shape →
      shape.parts = [] ∧ (∀ s, shape.DetailIn s) ∧
        ∀ d scope name, shape ≠ .typeVar d scope name := by
    intro id shape h
    obtain ⟨t, ht, rfl⟩ := Option.map_eq_some_iff.1 h
    have hget : initial.types.toList[id.index]? = some t := Array.getElem?_toList.trans ht
    have hmem := List.mem_of_getElem? hget
    simp only [TypeStore.initial, List.mem_cons, List.not_mem_nil, or_false] at hmem
    rcases hmem with rfl | rfl | rfl | rfl | rfl | rfl <;>
      exact ⟨rfl, fun _ => trivial, fun _ _ _ h => by cases h⟩
  exact {
    basic := Nat.le_refl 6
    parts := fun id shape h => by rw [(hshape id shape h).1]; exact nofun
    detail := fun id shape h => (hshape id shape h).2.1 _
    bounds := fun id d scope name v h => absurd rfl ((hshape id _ h).2.2 d scope name)
    classes := fun d c h => by cases h
    functions := fun d f h => by cases h
    typeVars := fun d v h => by cases h
    classTypes := nofun
    instances := nofun
    overran := rfl }

/-- The modules that are known beforehand may be put into a store. -/
theorem Builtins.works_create {s s' : TypeStore} {b : Builtins} (hs : s.Sound)
    (hcreate : Builtins.create.run s = (b, s')) : s'.Sound ∧ b.In s' := by
  rcases h1 : Drafting.run "builtins" none core s with ⟨⟨⟨b1, metaclassType⟩, coreModule⟩, s1⟩
  rcases h2 : Drafting.run "typing" (some metaclassType) (hints b1) s1 with ⟨⟨b2, hintModule⟩, s2⟩
  rcases h3 : Drafting.run "abc" (some metaclassType) (abstractBases b2) s2 with
    ⟨⟨b3, abstractModule⟩, s3⟩
  have heq : Builtins.create.run s = ({ b3 with modules := [("builtins", coreModule),
      ("typing", hintModule), ("abc", abstractModule)] }, s3) := by
    unfold create
    simp only [StateT.run_bind]
    simp only [StateT.run, h1, bind, h2, h3]
    rfl
  -- Each module is drafted with what the modules before it have left in the store.
  have hgiven : s.HasAll given :=
    hasAll_cons.2 ⟨hs.basic_in (by decide), hasAll_cons.2 ⟨hs.basic_in (by decide), hasAll_nil⟩⟩
  obtain ⟨hs1, hds1, hts1⟩ := Drafting.works_run leaves_core _ (fun _ h => by cases h) hs nofun
    hgiven h1
  have hunknown : s1.HasAll (.unknown :: coreModule :: [metaclassType]) :=
    hasAll_cons.2 ⟨hs1.basic_in (by decide), hts1⟩
  obtain ⟨hs2, hds2, hts2⟩ := Drafting.works_run (leaves_hints b1 List.mem_cons_self) _
    (forall_mem_some (hts1 _ (by simp))) hs1 hds1 hunknown h2
  obtain ⟨hs3, hds3, hts3⟩ := Drafting.works_run (leaves_abstractBases b2 (by simp)) _
    (forall_mem_some (hts2 _ (by simp))) hs2 hds2 hts2 h3
  rw [heq] at hcreate
  cases hcreate
  have hclass : ∀ id ∈ b3.allClasses, id.In s' := hds3
  refine ⟨hs3, ?_⟩
  constructor
  case modules =>
    simp only [hasAll_cons] at hts3
    obtain ⟨habstract, hhint, -, hcore, -⟩ := hts3
    exact hasAll_cons.2 ⟨hcore, hasAll_cons.2 ⟨hhint, hasAll_cons.2 ⟨habstract, hasAll_nil⟩⟩⟩
  all_goals exact hclass _ (by simp [allClasses, classes])

end TypeProbe
