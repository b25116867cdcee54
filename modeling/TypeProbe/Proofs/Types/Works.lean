import TypeProbe.Inference.Calls
import TypeProbe.Proofs.Types.Sound

/-!
# What the functions on stores do

A function on stores works (`TypeStore.Works`) if it makes a sound store out of a sound store, which
has grown, and its result is as it should be: in most cases a handle of the new store.
-/

namespace TypeProbe.TypeStore

/-- A function on stores makes a sound store that has grown, and a result as it is described. -/
def Works {α : Type} (s : TypeStore) (work : TypeStore → α × TypeStore)
    (post : α → TypeStore → Prop) : Prop :=
  s.Sound → (work s).2.Sound ∧ s.Grows (work s).2 ∧ post (work s).1 (work s).2

variable {α β : Type} {s : TypeStore} {id : TypeId} {ids : List TypeId}

namespace Works

variable {work : TypeStore → α × TypeStore} {post post' : α → TypeStore → Prop}

/-- What is given at once leaves the store. -/
theorem ret {a : α} (h : s.Sound → post a s) : s.Works (fun s => (a, s)) post :=
  fun hs => ⟨hs, .refl s, h hs⟩

/-- A store may be taken to be sound. -/
theorem intro (h : s.Sound → s.Works work post) : s.Works work post := fun hs => h hs hs

/-- Only what a function makes of this store counts. -/
theorem congr {work' : TypeStore → α × TypeStore} (heq : work s = work' s)
    (h : s.Works work' post) : s.Works work post := by
  unfold Works at h ⊢
  rwa [heq]

/-- What is known of a result may be weakened. -/
theorem weaken (h : s.Works work post)
    (hpost : ∀ a s', s'.Sound → s.Grows s' → post a s' → post' a s') : s.Works work post' := by
  intro hs
  obtain ⟨hsound, hgrows, ha⟩ := h hs
  exact ⟨hsound, hgrows, hpost _ _ hsound hgrows ha⟩

/-- One function after another. -/
theorem bind {work : StateM TypeStore α} {next : α → StateM TypeStore β}
    {post' : β → TypeStore → Prop} (h : s.Works work post)
    (hnext : ∀ a s', s.Grows s' → post a s' → s'.Works (next a) post') :
    s.Works (work >>= next) post' := by
  intro hs
  obtain ⟨hsound, hgrows, ha⟩ := h hs
  obtain ⟨hsound', hgrows', hb⟩ := hnext _ _ hgrows ha hsound
  exact ⟨hsound', hgrows.trans hgrows', hb⟩

/-- The store may be looked at. -/
theorem get {next : TypeStore → StateM TypeStore β} {post : β → TypeStore → Prop}
    (h : s.Works (next s) post) : s.Works (MonadState.get >>= next) post := h

/-- A function for each element of a list. -/
theorem mapM {work : α → StateM TypeStore β} {post : β → TypeStore → Prop} {as : List α}
    (hmono : ∀ {b s s'}, post b s → s.Grows s' → post b s')
    (h : ∀ a ∈ as, ∀ s', s.Grows s' → s'.Works (work a) post) :
    s.Works (as.mapM work) fun bs s' => ∀ b ∈ bs, post b s' := by
  induction as generalizing s with
  | nil => exact ret fun _ => nofun
  | cons a as ih =>
    rw [List.mapM_cons]
    refine (h a List.mem_cons_self s (.refl s)).bind fun b s1 h1 hb => ?_
    refine (ih fun a ha s' hs' => h a (List.mem_cons_of_mem _ ha) s' (h1.trans hs')).bind
      fun bs s2 h2 hbs => ?_
    exact ret fun _ => List.forall_mem_cons.2 ⟨hmono hb h2, hbs⟩

end Works

/-! ## Adding to a store -/

/-- The types after one has been added. -/
theorem get?_add (t : TypeRecord) (id : TypeId) :
    (s.add t).2.get? id = if id.index = s.types.size then some t else s.get? id :=
  Array.getElem?_push

/-- A store grows by a type. -/
theorem grows_add (t : TypeRecord) : s.Grows (s.add t).2 where
  get? id t' h := by
    have hid : id.index < s.types.size := in_of_get? h
    rw [get?_add, if_neg (Nat.ne_of_lt hid), h]
  types := by simp [add]
  classes := Nat.le_refl _
  functions := Nat.le_refl _
  typeVars := Nat.le_refl _

/-- A type may be added if its parts and its detail are there. -/
theorem works_add {t : TypeRecord} (hparts : s.HasAll t.shape.parts)
    (hdetail : t.shape.DetailIn s) :
    s.Works (fun s => s.add t) fun id s' => s'.get? id = some t := by
  intro h
  have hgrows := grows_add (s := s) t
  -- A shape that is there now is that of the new type or was there before.
  have hshape : ∀ id shape, (s.add t).2.shape? id = some shape →
      (id.index = s.types.size ∧ shape = t.shape) ∨ s.shape? id = some shape := by
    intro id shape hid
    obtain ⟨t', ht', rfl⟩ := Option.map_eq_some_iff.1 hid
    rw [get?_add] at ht'
    split at ht'
    · rename_i hnew
      cases ht'
      exact .inl ⟨hnew, rfl⟩
    · exact .inr (Option.map_eq_some_iff.2 ⟨t', ht', rfl⟩)
  refine ⟨⟨?_, ?_, ?_, ?_, ?_, ?_, ?_, ?_, ?_, h.overran⟩, hgrows, ?_⟩
  · exact Nat.le_trans h.basic hgrows.types
  · intro id shape hid part hpart
    rcases hshape id shape hid with ⟨hnew, rfl⟩ | hold
    · exact hnew ▸ hparts part hpart
    · exact h.parts id shape hold part hpart
  · intro id shape hid
    rcases hshape id shape hid with ⟨-, rfl⟩ | hold
    · exact hdetail.mono hgrows
    · exact (h.detail id shape hold).mono hgrows
  · intro id d scope name v hid hv part hpart
    rcases hshape id _ hid with ⟨hnew, -⟩ | hold
    · exact hnew ▸ h.typeVars d v hv part hpart
    · exact h.bounds id d scope name v hold hv part hpart
  · exact fun d c hc => (h.classes d c hc).mono hgrows
  · exact fun d f hf => (h.functions d f hf).mono hgrows
  · exact fun d v hv => (h.typeVars d v hv).mono hgrows
  · exact fun d id hid => hgrows.get? id _ (h.classTypes d id hid)
  · exact fun d id hid => hgrows.get? id _ (h.instances d id hid)
  · exact (get?_add t _).trans (if_pos rfl)

/-- A type of values may be added if its parts and its detail are there. -/
theorem works_addValue {shape : TypeShape} (hparts : s.HasAll shape.parts)
    (hdetail : shape.DetailIn s) : s.Works (fun s => s.addValue shape) TypeId.In :=
  (works_add hparts hdetail).weaken fun _ _ _ _ h => in_of_get? h

/-- A new type of a class may be made with arguments that are there. -/
theorem works_specializedClass {d : ClassId} (hd : d.In s) (hids : s.HasAll ids) :
    s.Works (·.specializedClass d ids) TypeId.In :=
  (works_add (t := ⟨classFlags, .nominal d (some ids) none⟩) hids hd).weaken
    fun _ _ _ _ h => in_of_get? h

/-- A new type of values may be made with arguments that are there. -/
theorem works_specializedInstance {d : ClassId} (hd : d.In s) (hids : s.HasAll ids) :
    s.Works (·.specializedInstance d ids) TypeId.In :=
  works_addValue hids hd

/-- A literal type may be made. -/
theorem works_literal {d : ClassId} (hd : d.In s) (value : LiteralValue) :
    s.Works (·.literal d value) TypeId.In :=
  works_addValue hasAll_nil hd

/-- The plain type of a class is there or may be made. -/
theorem works_classType {d : ClassId} (hd : d.In s) :
    s.Works (·.classType d) fun id s' => s'.get? id = some ⟨classFlags, .nominal d none none⟩ := by
  intro h
  show (s.classType d).2.Sound ∧ s.Grows (s.classType d).2 ∧
    (s.classType d).2.get? (s.classType d).1 = some ⟨classFlags, .nominal d none none⟩
  unfold classType
  split
  · rename_i id hid
    exact ⟨h, .refl s, h.classTypes d id (mem_of_lookup hid)⟩
  · obtain ⟨hsound, hgrows, hnew⟩ :=
      works_add (t := ⟨classFlags, .nominal d none none⟩) hasAll_nil hd h
    refine ⟨{ hsound with classTypes := fun d' id' hid => ?_ }, ⟨hgrows.get?, hgrows.types,
      hgrows.classes, hgrows.functions, hgrows.typeVars⟩, hnew⟩
    rcases List.mem_cons.1 hid with heq | hold
    · cases heq
      exact hnew
    · exact hsound.classTypes d' id' hold

/-- The plain type of the values of a class is there or may be made. -/
theorem works_instanceOf {d : ClassId} (hd : d.In s) :
    s.Works (·.instanceOf d) fun id s' => s'.get? id = some ⟨valueFlags, .nominal d none none⟩ := by
  intro h
  show (s.instanceOf d).2.Sound ∧ s.Grows (s.instanceOf d).2 ∧
    (s.instanceOf d).2.get? (s.instanceOf d).1 = some ⟨valueFlags, .nominal d none none⟩
  unfold instanceOf
  split
  · rename_i id hid
    exact ⟨h, .refl s, h.instances d id (mem_of_lookup hid)⟩
  · obtain ⟨hsound, hgrows, hnew⟩ :=
      works_add (t := ⟨valueFlags, .nominal d none none⟩) hasAll_nil hd h
    refine ⟨{ hsound with instances := fun d' id' hid => ?_ }, ⟨hgrows.get?, hgrows.types,
      hgrows.classes, hgrows.functions, hgrows.typeVars⟩, hnew⟩
    rcases List.mem_cons.1 hid with heq | hold
    · cases heq
      exact hnew
    · exact hsound.instances d' id' hold

/-- The plain type of a class has a handle. -/
theorem works_classType_in {d : ClassId} (hd : d.In s) :
    s.Works (·.classType d) TypeId.In :=
  (works_classType hd).weaken fun _ _ _ _ h => in_of_get? h

/-- The plain type of the values of a class has a handle. -/
theorem works_instanceOf_in {d : ClassId} (hd : d.In s) :
    s.Works (·.instanceOf d) TypeId.In :=
  (works_instanceOf hd).weaken fun _ _ _ _ h => in_of_get? h

/-! ## Details -/

/-- The classes after one has been added. -/
theorem class?_addClass (c : ClassDetail) (d : ClassId) : (s.addClass c).2.class? d =
    if d.index = s.classes.size then some { c with sourceId := s.classes.size + 1 }
    else s.class? d := Array.getElem?_push

/-- The functions after one has been added. -/
theorem function?_addFunction (f : FunctionDetail) (d : FunctionId) :
    (s.addFunction f).2.function? d =
      if d.index = s.functions.size then some f else s.function? d := Array.getElem?_push

/-- The type variables after one has been added. -/
theorem typeVar?_addTypeVar (v : TypeVarDetail) (d : TypeVarId) :
    (s.addTypeVar v).2.typeVar? d =
      if d.index = s.typeVars.size then some v else s.typeVar? d := Array.getElem?_push

/-- The classes after one has been changed. -/
theorem class?_modifyClass (d d' : ClassId) (change : ClassDetail → ClassDetail) :
    (s.modifyClass d change).class? d' =
      if d.index = d'.index then (s.class? d').map change else s.class? d' :=
  Array.getElem?_modify

/-- The functions after one has been changed. -/
theorem function?_modifyFunction (d d' : FunctionId) (change : FunctionDetail → FunctionDetail) :
    (s.modifyFunction d change).function? d' =
      if d.index = d'.index then (s.function? d').map change else s.function? d' :=
  Array.getElem?_modify

/-- A class may be added if the types it refers to are there. -/
theorem works_addClass {c : ClassDetail} (hc : s.HasAll c.types) :
    s.Works (·.addClass c) fun d s' => d.In s' := by
  intro h
  have hgrows : s.Grows (s.addClass c).2 :=
    ⟨fun _ _ h => h, Nat.le_refl _, by simp [addClass], Nat.le_refl _, Nat.le_refl _⟩
  refine ⟨{ h with
    detail := fun id shape hid => (h.detail id shape hid).mono hgrows
    classes := fun d c' hc' => ?_ }, hgrows, by simp [addClass, ClassId.In]⟩
  rw [class?_addClass] at hc'
  split at hc'
  · cases hc'
    exact hc.mono hgrows
  · exact (h.classes d c' hc').mono hgrows

/-- A function may be added if the types it refers to are there. -/
theorem works_addFunction {f : FunctionDetail} (hf : s.HasAll f.types) :
    s.Works (·.addFunction f) fun d s' => d.In s' := by
  intro h
  have hgrows : s.Grows (s.addFunction f).2 :=
    ⟨fun _ _ h => h, Nat.le_refl _, Nat.le_refl _, by simp [addFunction], Nat.le_refl _⟩
  refine ⟨{ h with
    detail := fun id shape hid => (h.detail id shape hid).mono hgrows
    functions := fun d f' hf' => ?_ }, hgrows, by simp [addFunction, FunctionId.In]⟩
  rw [function?_addFunction] at hf'
  split at hf'
  · cases hf'
    exact hf.mono hgrows
  · exact (h.functions d f' hf').mono hgrows

/-- A type variable may be added if the types it refers to are there. -/
theorem works_addTypeVar {v : TypeVarDetail} (hv : s.HasAll v.types) :
    s.Works (·.addTypeVar v) fun d s' => d.In s' := by
  intro h
  have hgrows : s.Grows (s.addTypeVar v).2 :=
    ⟨fun _ _ h => h, Nat.le_refl _, Nat.le_refl _, Nat.le_refl _, by simp [addTypeVar]⟩
  refine ⟨{ h with
    detail := fun id shape hid => (h.detail id shape hid).mono hgrows
    bounds := fun id d scope name v' hid hv' => ?_
    typeVars := fun d v' hv' => ?_ }, hgrows, by simp [addTypeVar, TypeVarId.In]⟩
  · -- No type is made of a type variable that was not there.
    have hd : d.index < s.typeVars.size := h.detail id _ hid
    rw [typeVar?_addTypeVar, if_neg (Nat.ne_of_lt hd)] at hv'
    exact h.bounds id d scope name v' hid hv'
  · rw [typeVar?_addTypeVar] at hv'
    split at hv'
    · cases hv'
      exact hv.mono hgrows
    · exact (h.typeVars d v' hv').mono hgrows

/-- A class may be changed if the types it then refers to are there. -/
theorem works_modifyClass {d : ClassId} {change : ClassDetail → ClassDetail}
    (hchange : ∀ c : ClassDetail, s.HasAll c.types → s.HasAll (change c).types) :
    s.Works (fun s => ((), s.modifyClass d change)) fun _ _ => True := by
  intro h
  have hgrows : s.Grows (s.modifyClass d change) :=
    ⟨fun _ _ h => h, Nat.le_refl _, by simp [modifyClass], Nat.le_refl _, Nat.le_refl _⟩
  refine ⟨{ h with
    detail := fun id shape hid => (h.detail id shape hid).mono hgrows
    classes := fun d' c' hc' => ?_ }, hgrows, trivial⟩
  rw [class?_modifyClass] at hc'
  split at hc'
  · obtain ⟨c, hc, rfl⟩ := Option.map_eq_some_iff.1 hc'
    exact (hchange c (h.classes d' c hc)).mono hgrows
  · exact (h.classes d' c' hc').mono hgrows

/-- A function may be changed if the types it then refers to are there. -/
theorem works_modifyFunction {d : FunctionId} {change : FunctionDetail → FunctionDetail}
    (hchange : ∀ f : FunctionDetail, s.HasAll f.types → s.HasAll (change f).types) :
    s.Works (fun s => ((), s.modifyFunction d change)) fun _ _ => True := by
  intro h
  have hgrows : s.Grows (s.modifyFunction d change) :=
    ⟨fun _ _ h => h, Nat.le_refl _, Nat.le_refl _, by simp [modifyFunction], Nat.le_refl _⟩
  refine ⟨{ h with
    detail := fun id shape hid => (h.detail id shape hid).mono hgrows
    functions := fun d' f' hf' => ?_ }, hgrows, trivial⟩
  rw [function?_modifyFunction] at hf'
  split at hf'
  · obtain ⟨f, hf, rfl⟩ := Option.map_eq_some_iff.1 hf'
    exact (hchange f (h.functions d' f hf)).mono hgrows
  · exact (h.functions d' f' hf').mono hgrows

end TypeProbe.TypeStore
