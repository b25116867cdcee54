import TypeProbe.Proofs.Scope.Steps

/-!
# What a walk over a tree notes

A walk comes to a node in the scope that the names of the node belong to (`Stands`), and opens one
scope for each node at or below it that opens one. Both hold of the walk of a construct if they hold
of the walks of its parts, so they hold of the whole tree.
-/

namespace TypeProbe

/-- A walk may come to a node in a scope: it is known, and the names of the node belong to it. The
first clause of a comprehension is not walked as a whole. -/
structure Stands (a : Arena) (root : NodeId) (C : Opened) (scope : ScopeId) (n : NodeId) :
    Prop where
  /-- The node is found in the tree. -/
  reaches : a.Reaches root n
  /-- The names of the node belong to the scope. -/
  enclosed : ∃ owner, (scope, owner) ∈ C ∧ a.Encloses owner n
  /-- The node is no first clause of a comprehension. -/
  clause : ∀ isAsync target iterable, a.form? n = some (.comprehensionFor isAsync target iterable) →
    Bindings.isFirstClause a n = false

namespace Stands

variable {a : Arena} {root p n : NodeId} {C D : Opened} {scope : ScopeId} {form : Form}

variable (h : a.Rooted root)
include h

/-- What is no clause of a comprehension is no first one. -/
theorem isFirstClause_eq_false (hform : a.form? p = some form) (hn : n ∈ form.children)
    (hne : ∀ expression clauses, form ≠ .comprehension expression (n :: clauses)) :
    Bindings.isFirstClause a n = false := by
  refine Bool.eq_false_iff.2 fun hfirst => ?_
  obtain ⟨q, expression, clauses, hq⟩ := h.isFirstClause_iff.1 hfirst
  obtain ⟨-, rfl⟩ := h.form_unique hform hn hq (by simp [Form.children])
  exact hne expression clauses rfl

/-- A walk may go on to what a construct leaves outside. -/
theorem outside (hs : Stands a root C scope p) (hform : a.form? p = some form)
    (hn : n ∈ form.outside) : Stands a root C scope n := by
  have hchild := Form.outside_subset_children hn
  obtain ⟨owner, hmem, henc⟩ := hs.enclosed
  refine ⟨hs.reaches.tail (Arena.mem_children_of_form? hform hchild),
    ⟨owner, hmem, .outside hform hn ?_ henc⟩, fun _ _ _ _ => ?_⟩
  · rintro ⟨clause, isAsync, target, hclause, hfirst⟩
    obtain ⟨rfl, rfl⟩ := h.form_unique hform hchild hclause (by simp [Form.children])
    rw [hs.clause _ _ _ hclause] at hfirst
    cases hfirst
  · refine isFirstClause_eq_false h hform hchild fun expression clauses heq => ?_
    rw [heq] at hn
    cases hn

/-- A walk may go on to what a construct takes inside. -/
theorem inside (hp : a.Reaches root p) (hform : a.form? p = some form) (hn : n ∈ form.inside)
    (hscope : (scope, p) ∈ C)
    (hclause : ∀ expression clauses, form = .comprehension expression (n :: clauses) →
      ∀ isAsync target iterable,
        a.form? n ≠ some (.comprehensionFor isAsync target iterable)) :
    Stands a root C scope n := by
  have hchild := Form.inside_subset_children hn
  refine ⟨hp.tail (Arena.mem_children_of_form? hform hchild), ⟨p, hscope, .inside hform hn⟩,
    fun isAsync target iterable hfor => ?_⟩
  exact isFirstClause_eq_false h hform hchild fun expression clauses heq =>
    hclause expression clauses heq isAsync target iterable hfor

omit h in
/-- A walk may come to a clause of a comprehension inside, unless it is the first one. -/
theorem clauseOf {clause expression : NodeId} {clauses : List NodeId} (hp : a.Reaches root p)
    (hform : a.form? p = some (.comprehension expression clauses)) (hclause : clause ∈ clauses)
    (hscope : (scope, p) ∈ C)
    (hfirst : ∀ isAsync target iterable,
      a.form? clause = some (.comprehensionFor isAsync target iterable) →
        Bindings.isFirstClause a clause = false) :
    Stands a root C scope clause :=
  ⟨hp.tail (Arena.mem_children_of_form? hform (List.mem_cons_of_mem _ hclause)),
    ⟨p, hscope, .inside hform (List.mem_cons_of_mem _ hclause)⟩, hfirst⟩

/-- A walk may come to the target of any clause of a comprehension inside. -/
theorem targetOf {clause expression target iterable : NodeId} {clauses : List NodeId}
    {isAsync : Bool} (hp : a.Reaches root p)
    (hform : a.form? p = some (.comprehension expression clauses)) (hclause : clause ∈ clauses)
    (hscope : (scope, p) ∈ C)
    (hfor : a.form? clause = some (.comprehensionFor isAsync target iterable)) :
    Stands a root C scope target := by
  have hmem : clause ∈ (Form.comprehension expression clauses).inside :=
    List.mem_cons_of_mem _ hclause
  have htarget : target ∈ (Form.comprehensionFor isAsync target iterable).children :=
    List.mem_cons_self
  have hne : ¬ a.IsFirstIterable target := by
    refine h.not_isFirstIterable hfor htarget fun _ _ heq => ?_
    have hnodup : [target, iterable].Nodup := h.nodup_children hfor
    cases heq
    simp at hnodup
  refine ⟨?_, ⟨p, hscope, .outside hfor htarget hne (.inside hform hmem)⟩, fun _ _ _ _ => ?_⟩
  · exact (hp.tail (Arena.mem_children_of_form? hform hmem)).tail
      (Arena.mem_children_of_form? hfor htarget)
  · exact isFirstClause_eq_false h hfor htarget (by simp)

end Stands

/-- How many scopes of a node are opened around a comprehension for its first clause. -/
noncomputable def outerTimes (a : Arena) (x : NodeId) (clauses : List NodeId) : Nat :=
  match clauses.head?.bind a.form? with
  | some (.comprehensionFor _ _ iterable) => a.times x iterable
  | _ => 0

/-- How many scopes of a node are opened inside a comprehension for one of its clauses. -/
noncomputable def clauseTimes (a : Arena) (x clause : NodeId) (isFirst : Bool) : Nat :=
  match a.form? clause with
  | some (.comprehensionFor _ target iterable) =>
    a.times x target + if isFirst then 0 else a.times x iterable
  | _ => a.times x clause

/-- What is opened for the first clause around the comprehension and inside is what would be opened
inside for a later one. -/
theorem outerTimes_add_clauseTimes (a : Arena) (x : NodeId) (clauses : List NodeId) :
    outerTimes a x clauses + (clauses.zipIdx.map fun e => clauseTimes a x e.1 (e.2 == 0)).sum =
      (clauses.map fun clause => clauseTimes a x clause false).sum := by
  cases clauses with
  | nil => rfl
  | cons first rest =>
    -- Only the first clause is walked in two parts, one around the comprehension and one inside.
    have hfirst : outerTimes a x (first :: rest) + clauseTimes a x first true =
        clauseTimes a x first false := by
      unfold outerTimes clauseTimes
      rw [List.head?_cons, Option.bind_some]
      split
      · exact Nat.add_comm _ _
      · exact Nat.zero_add _
    have hrest : (rest.zipIdx 1).map (fun e => clauseTimes a x e.1 (e.2 == 0)) =
        rest.map fun clause => clauseTimes a x clause false := by
      rw [← List.zipIdx_map_fst 1 rest, List.map_map, List.zipIdx_map_fst]
      refine List.map_congr_left fun e he => ?_
      have hpos := List.le_snd_of_mem_zipIdx he
      rw [beq_false_of_ne (Nat.ne_of_gt hpos)]
      rfl
    rw [List.zipIdx_cons, List.map_cons, List.sum_cons, Nat.zero_add, hrest, ← Nat.add_assoc]
    exact congrArg (· + _) hfirst

/-- Whether a construct consists of names only, which are not walked. -/
def Form.namesOnly : Form → Bool
  | .importAs _ _ => true
  | .importFromAs _ _ => true
  | .global _ => true
  | .nonlocal _ => true
  | _ => false

/-- Whether a walk does not come to nodes of a kind by themselves: it passes names over, and takes
parameters and the clauses of comprehensions part by part. -/
def NodeKind.isPassedOver : NodeKind → Bool
  | .name | .moduleName | .parameter | .listComprehensionFor => true
  | _ => false

section Times

variable {a : Arena} {root x n : NodeId} {form : Form} (h : a.Rooted root)
include h

/-- A node is found at the top, or in one of the parts of the form. -/
theorem times_of_form? (hform : a.form? n = some form) :
    a.times x n = (if n = x then 1 else 0) + (form.children.map (a.times x)).sum := by
  rw [h.times_eq, Arena.children_of_form? hform]

/-- A node that opens a scope is not found at the top where no scope is opened. -/
theorem times_plain (hx : ((a.kind? x).bind ScopeKind.ofNode?).isSome)
    (hform : a.form? n = some form) (hkind : ScopeKind.ofNode? form.kind = none) :
    a.times x n = (form.children.map (a.times x)).sum := by
  have hne : n ≠ x := by
    rintro rfl
    rw [Arena.kind?_of_form? hform, Option.bind_some, hkind] at hx
    cases hx
  rw [times_of_form? h hform, if_neg hne, Nat.zero_add]

variable (hx : ∀ kind, a.kind? x = some kind → kind.isPassedOver = false)
include hx

/-- A node to which a walk comes is not found at the top of what is passed over. -/
theorem times_passedOver (hform : a.form? n = some form) (hkind : form.kind.isPassedOver = true) :
    a.times x n = (form.children.map (a.times x)).sum := by
  have hne : n ≠ x := by
    rintro rfl
    rw [hx _ (Arena.kind?_of_form? hform)] at hkind
    cases hkind
  rw [times_of_form? h hform, if_neg hne, Nat.zero_add]

/-- Nothing is found at a name. -/
theorem times_name (hkind : a.kind? n = some .name) : a.times x n = 0 := by
  obtain ⟨form, hform, hname⟩ := Arena.form?_of_kind? hkind
  rw [times_passedOver h hx hform (by rw [hname]; rfl)]
  cases form <;> simp_all [Form.kind, Form.children]

/-- What is found in a parameter is found in its type hint or its default value. -/
theorem times_parameter {category : ParameterCategory} {title hint defaultValue : Option NodeId}
    (hform : a.form? n = some (.parameter category title hint defaultValue)) :
    a.times x n = ((hint.toList ++ defaultValue.toList).map (a.times x)).sum := by
  have htitle : ∀ t ∈ title.toList, a.times x t = 0 := fun t ht =>
    times_name h hx (h.parts n _ hform (t, .kind .name)
      (List.mem_append_left _ (mem_allOf.2 ⟨ht, rfl⟩)))
  rw [times_passedOver h hx hform rfl]
  cases title with
  | none => rfl
  | some title => simp [Form.children, htitle title (by simp)]

/-- What is found in the clauses of a comprehension is found where they are walked. -/
theorem outerTimes_add (clauses : List NodeId) :
    outerTimes a x clauses + (clauses.zipIdx.map fun e => clauseTimes a x e.1 (e.2 == 0)).sum =
      (clauses.map (a.times x)).sum := by
  rw [outerTimes_add_clauseTimes]
  refine congrArg List.sum (List.map_congr_left fun clause _ => ?_)
  unfold clauseTimes
  split
  · rename_i hfor
    rw [times_passedOver h hx hfor rfl]
    simp [Form.children]
  · rfl

/-- Nothing is found at names. -/
theorem times_names {ids : List NodeId} (hids : ∀ i ∈ ids, a.kind? i = some .name) :
    (ids.map (a.times x)).sum = 0 := List.sum_eq_zero fun k hk => by
  obtain ⟨i, hi, rfl⟩ := List.mem_map.1 hk
  exact times_name h hx (hids i hi)

/-- Nothing is found at the name of a module. -/
theorem times_moduleName (hkind : a.kind? n = some .moduleName) : a.times x n = 0 := by
  obtain ⟨form, hform, hmodule⟩ := Arena.form?_of_kind? hkind
  cases form <;> cases hmodule
  rw [times_passedOver h hx hform rfl]
  exact times_names h hx fun i hi => h.parts n _ hform (i, .kind .name) (mem_allOf.2 ⟨hi, rfl⟩)

/-- Nothing is found below what consists of names only. -/
theorem times_namesOnly (hform : a.form? n = some form) (hnames : form.namesOnly) :
    (form.children.map (a.times x)).sum = 0 := by
  have hparts := h.parts n form hform
  cases form with
  | importAs source newName =>
    rw [Form.children, List.map_cons, List.sum_cons,
      times_moduleName h hx (hparts _ List.mem_cons_self), Nat.zero_add]
    exact times_names h hx fun i hi =>
      hparts (i, .kind .name) (List.mem_cons_of_mem _ (mem_allOf.2 ⟨hi, rfl⟩))
  | importFromAs title newName =>
    refine times_names h hx (List.forall_mem_cons.2 ⟨hparts _ List.mem_cons_self, fun i hi => ?_⟩)
    exact hparts (i, .kind .name) (List.mem_cons_of_mem _ (mem_allOf.2 ⟨hi, rfl⟩))
  | global names =>
    exact times_names h hx fun i hi => hparts (i, .kind .name) (mem_allOf.2 ⟨hi, rfl⟩)
  | «nonlocal» names =>
    exact times_names h hx fun i hi => hparts (i, .kind .name) (mem_allOf.2 ⟨hi, rfl⟩)
  | _ => cases hnames

end Times

/-- A walk comes to what opens a scope. -/
theorem not_isPassedOver_of_opens {a : Arena} {x : NodeId}
    (hx : ((a.kind? x).bind ScopeKind.ofNode?).isSome) (kind : NodeKind)
    (hkind : a.kind? x = some kind) : kind.isPassedOver = false := by
  rw [hkind] at hx
  cases kind <;> first | rfl | cases hx

/-- A walk may come to a node; to a name it may come anywhere, since it notes nothing there. -/
def Comes (a : Arena) (root : NodeId) (C : Opened) (scope : ScopeId) (n : NodeId) : Prop :=
  a.kind? n ≠ some .name → Stands a root C scope n

/-- A walk of what is below a node: where it may come to an earlier node, it opens as many scopes of
the node `x` as there are there. -/
def WalksBelow (a : Arena) (root x bound : NodeId) (walk : WalkContext → NodeId → Binder Unit) :
    Prop :=
  ∀ m < bound, ∀ C (context : WalkContext), Comes a root C context.scope m →
    Binds a root x C (a.times x m) (walk context m) fun _ => []

namespace Binds

variable {a : Arena} {root x n : NodeId} {C : Opened} {form : Form} {context : WalkContext}

/-- A member may be noted. -/
theorem bindMember (target left member : NodeId) (source hint : Option NodeId) :
    Binds a root x C 0 (Binder.bindMember a context target left member source hint)
      fun _ => [] := by
  refine note fun b => ?_
  unfold Binder.bindMember
  split
  · split <;> rfl
  · rfl

/-- Names are added to those that are there. -/
theorem mem_addNames {names more : List String} {y : String} :
    y ∈ Binder.addNames names more ↔ y ∈ names ∨ y ∈ more := by
  unfold Binder.addNames
  induction more generalizing names with
  | nil => simp
  | cons name more ih =>
    rw [List.foldl_cons, ih, List.mem_cons]
    split
    · -- A name that is there already is not added.
      rename_i hthere
      have hmem : name ∈ names := by simpa using hthere
      constructor
      · exact Or.imp_right .inr
      · rintro (hy | rfl | hy)
        · exact .inl hy
        · exact .inl hmem
        · exact .inr hy
    · rw [List.mem_append, List.mem_singleton, or_assoc]

/-- Names may be noted in a scope to stand for those of other scopes, if a statement says so. -/
theorem noteNames {scope : ScopeId} {change : Scope → Scope}
    (hsame : ∀ s, (change s).node = s.node ∧ (change s).parent = s.parent ∧
      (change s).kind = s.kind ∧ (change s).symbols = s.symbols)
    (hnames : ∀ s y, y ∈ (change s).globals ∨ y ∈ (change s).nonlocals →
      (y ∈ s.globals ∨ y ∈ s.nonlocals) ∨ a.Disclaims root y) :
    Binds a root x C 0 (Binder.modifyScope scope change) fun _ => [] := by
  refine modifyScope (fun s => (hsame s).1) (fun s => (hsame s).2.1) fun s _ hfits => ?_
  obtain ⟨hnode, -, hkind, hsymbols⟩ := hsame s
  refine ⟨hnode ▸ hfits.reaches, hnode ▸ hkind ▸ hfits.kind, fun y hy => ?_, ?_⟩
  · exact (hnames s y hy).elim (hfits.disclaimed y) id
  · rw [hnode, hsymbols]
    exact hfits.declared

section Targets

variable (h : a.Rooted root)
include h

/-- What a target binds may be declared where the names of the target belong. -/
theorem bindTarget (fuel : Nat) {target : NodeId} {source hint : Option NodeId} {path : List Nat}
    (htarget : ∃ owner, (context.scope, owner) ∈ C ∧ a.Encloses owner target) :
    Binds a root x C 0 (Binder.bindTarget a context fuel target source hint path) fun _ => [] := by
  -- On the depth to which a target is gone into; where that ends nothing is noted.
  induction fuel generalizing target source hint path with
  | zero => exact ret
  | succ fuel ih =>
    -- The names of a part of a target belong where those of the target do.
    have hpart : ∀ {form part}, a.form? target = some form → form.outside = form.children →
        (∀ isAsync left, form ≠ .comprehensionFor isAsync left part) → part ∈ form.children →
        ∃ owner, (context.scope, owner) ∈ C ∧ a.Encloses owner part := by
      intro form part hform hout hne hpart
      obtain ⟨owner, hmem, henc⟩ := htarget
      have hfirst := h.not_isFirstIterable hform hpart hne
      exact ⟨owner, hmem, .outside hform (hout ▸ hpart) hfirst henc⟩
    have hentries : ∀ {form entries}, a.form? target = some form → form.outside = form.children →
        form.children = entries →
        (∀ isAsync left right, form ≠ .comprehensionFor isAsync left right) →
        Binds a root x C 0 (do
          for entry in entries.zipIdx do
            Binder.bindTarget a context fuel entry.1 source none (path ++ [entry.2]))
          fun _ => [] := by
      intro form entries hform hout hchildren hne
      refine forInPlain fun entry hentry => ⟨_, rfl, ih ?_⟩
      have hmem := List.fst_mem_of_mem_zipIdx hentry
      exact hpart hform hout (fun _ _ => hne _ _ _) (hchildren ▸ hmem)
    unfold Binder.bindTarget
    split
    · exact declare fun _ => htarget
    · rename_i hform
      exact ih (hpart hform rfl (by simp) (by simp [Form.children]))
    · rename_i hform
      exact hentries hform rfl rfl (by simp)
    · rename_i hform
      exact hentries hform rfl rfl (by simp)
    · rename_i hform
      exact ih (hpart hform rfl (by simp) (by simp [Form.children]))
    · exact bindMember _ _ _ _ _
    · exact ret

/-- A target may be bound where its names belong. -/
theorem bindNames {target : NodeId} {source hint : Option NodeId}
    (htarget : Stands a root C context.scope target) :
    Binds a root x C 0 (Binder.bind a context target source hint) fun _ => [] :=
  bindTarget h _ htarget.enclosed

omit h in
/-- What a named expression gives its value to may be declared anywhere, since it is no local
variable. -/
theorem bindWalrus {title right : NodeId} {scope : ScopeId}
    (hform : a.form? n = some (.assignmentExpression title right))
    (htitle : a.kind? title = some .name) :
    Binds a root x C 0 (Binder.bind a { context with scope } title (some right) none)
      fun _ => [] := by
  obtain ⟨form, hname, hkind⟩ := Arena.form?_of_kind? htitle
  unfold Binder.bind Binder.bindTarget
  rw [hname]
  cases form <;> cases hkind
  exact declare fun hlocal => absurd ⟨n, right, hform⟩ hlocal.walrus

/-- What a node notes that opens no scope. -/
theorem visitPlain (hs : Stands a root C context.scope n) (hform : a.form? n = some form)
    (hout : form.outside = form.children) :
    Binds a root x C 0 (Binder.visitPlain a context n form) fun _ => [] := by
  have hpart : ∀ part ∈ form.children, Stands a root C context.scope part := fun part hmem =>
    hs.outside h hform (hout ▸ hmem)
  unfold Binder.visitPlain
  -- The cases are those of the forms that note something, in their order.
  split
  · exact (bindNames h (hpart _ (by simp [Form.children]))).andThen fun _ => ret
  · have hvalue := hpart _ List.mem_cons_self
    exact ite (andThen (bindNames h hvalue) fun _ => ret) ret
  · exact (bindNames h (hpart _ (by simp [Form.children]))).andThen fun _ => ret
  · -- The name is declared around comprehensions, which is not where it stands.
    have htitle := h.parts n _ hform _ List.mem_cons_self
    exact (read fun _ => rfl).andThen fun b => (bindWalrus hform htitle).andThen fun _ => ret
  · exact (bindNames h (hpart _ (by simp [Form.children]))).andThen fun _ => ret
  · exact (bindNames h (hpart _ (by simp [Form.children]))).andThen fun _ => ret
  · rename_i title _
    have htitle : Stands a root C context.scope title := hpart title (by simp [Form.children])
    exact (declareNode fun _ => htitle.enclosed).andThen fun _ => ret
  · refine (forInPlain fun name _ => ⟨_, rfl, ?_⟩).andThen fun _ => ret
    exact declareNode (d := .plain .imported n) (by simp [Declaration.plain])
  · exact (declareNode (d := .plain .imported n) (by simp [Declaration.plain])).andThen fun _ => ret
  · refine andThen (noteNames (fun _ => ⟨rfl, rfl, rfl, rfl⟩) fun s y hy => ?_) fun _ => ret
    rcases hy with hy | hy
    · exact (mem_addNames.1 hy).imp .inl fun hy => ⟨n, _, hs.reaches, .inl hform, hy⟩
    · exact .inl (.inr hy)
  · refine andThen (noteNames (fun _ => ⟨rfl, rfl, rfl, rfl⟩) fun s y hy => ?_) fun _ => ret
    rcases hy with hy | hy
    · exact .inl (.inl hy)
    · exact (mem_addNames.1 hy).imp .inr fun hy => ⟨n, _, hs.reaches, .inr hform, hy⟩
  · exact (forInPlain fun _ _ => ⟨_, rfl, note fun _ => rfl⟩).andThen fun _ => ret
  · exact (forInPlain fun _ _ => ⟨_, rfl, note fun _ => rfl⟩).andThen fun _ => ret
  · exact (forInPlain fun _ _ => ⟨_, rfl, note fun _ => rfl⟩).andThen fun _ => ret
  · exact ret

end Targets

/-- A walk goes on to the parts of what does not consist of names only. -/
theorem visitPlain_result (b : Bindings) :
    ((Binder.visitPlain a context n form).run b).1 = !form.namesOnly := by
  cases form with
  | typeHint value hint =>
    show ((if _ then _ else _ : Binder Bool).run b).1 = true
    split <;> rfl
  | withItem expression target => cases target <;> rfl
  | except typeExpression title body => cases title <;> rfl
  | _ => rfl

/-! ## The walks of constructs -/

section Walks

variable (h : a.Rooted root) (hx : ((a.kind? x).bind ScopeKind.ofNode?).isSome)
  {walk : WalkContext → NodeId → Binder Unit} (hwalk : WalksBelow a root x n walk)
include h hx hwalk

omit h hx in
/-- Nodes before a node may be walked one after the other. -/
theorem walkEach {ids : List NodeId} (hids : ∀ m ∈ ids, m < n ∧ Comes a root C context.scope m) :
    Binds a root x C (ids.map (a.times x)).sum
      (do for child in ids do walk context child) fun _ => [] :=
  forIn fun m hm => ⟨_, rfl, hwalk m (hids m hm).1 C context (hids m hm).2⟩

omit hx in
/-- Parts of a node may be walked that it leaves outside. -/
theorem walkOutside (hs : Stands a root C context.scope n) (hform : a.form? n = some form)
    {ids : List NodeId} (hids : ids ⊆ form.outside) :
    Binds a root x C (ids.map (a.times x)).sum
      (do for child in ids do walk context child) fun _ => [] := by
  refine walkEach hwalk fun part hpart => ⟨h.lt n part (Arena.mem_children_of_form? hform
    (Form.outside_subset_children (hids hpart))), fun _ => hs.outside h hform (hids hpart)⟩

omit hx in
/-- A part of a node may be walked that it takes into the scope that it has opened. -/
theorem walkInside (inner : WalkContext) (hreaches : a.Reaches root n)
    (hform : a.form? n = some form) {part : NodeId} (hpart : part ∈ form.inside)
    (hne : ∀ expression clauses, form ≠ .comprehension expression clauses)
    (hscope : (inner.scope, n) ∈ C) :
    Binds a root x C (a.times x part) (walk inner part) fun _ => [] := by
  have hlt := h.lt n part (Arena.mem_children_of_form? hform (Form.inside_subset_children hpart))
  exact hwalk part hlt C inner fun _ => .inside h hreaches hform hpart hscope fun _ _ heq =>
    absurd heq (hne _ _)

/-- The type hints and default values of parameters may be walked. -/
theorem walkParameters (hs : Stands a root C context.scope n) (hform : a.form? n = some form)
    {parameters : List NodeId} (hout : parameters ⊆ form.outside)
    (hkind : ∀ p ∈ parameters, a.kind? p = some .parameter) :
    Binds a root x C (parameters.map (a.times x)).sum
      (Binder.walkParameters a walk context parameters) fun _ => [] := by
  refine forIn fun p hp => ?_
  have hpform : ∃ category title hint defaultValue,
      a.form? p = some (.parameter category title hint defaultValue) := by
    obtain ⟨pform, hpform, hparameter⟩ := Arena.form?_of_kind? (hkind p hp)
    cases pform <;> cases hparameter
    exact ⟨_, _, _, _, hpform⟩
  obtain ⟨category, title, hint, defaultValue, hpform⟩ := hpform
  refine ⟨do for child in hint.toList ++ defaultValue.toList do walk context child,
    by rw [hpform]; rfl, ?_⟩
  have hlt := h.lt n p (Arena.mem_children_of_form? hform (Form.outside_subset_children (hout hp)))
  exact counted (walkOutside h (fun m hm => hwalk m (Nat.lt_trans hm hlt))
    (hs.outside h hform (hout hp)) hpform (List.Subset.refl _))
    (times_parameter h (not_isPassedOver_of_opens hx) hpform).symm

omit h hx hwalk in
/-- Parameters may be declared. -/
theorem declareParameters (scope : ScopeId) (parameters : List NodeId) :
    Binds a root x C 0 (Binder.declareParameters a scope parameters) fun _ => [] := by
  refine forInPlain fun p _ => ?_
  cases hform : a.form? p with
  | none => exact ⟨pure (), rfl, ret⟩
  | some form =>
    cases form with
    | parameter category title hint defaultValue =>
      cases title with
      | none => exact ⟨pure (), rfl, ret⟩
      | some title =>
        exact ⟨_, rfl, declareNode (d := ⟨.parameter, p, none, hint, []⟩) (by simp)⟩
    | _ => exact ⟨pure (), rfl, ret⟩

/-- A class may be walked. -/
theorem walkClass (hs : Stands a root C context.scope n) {decorators arguments : List NodeId}
    {title body : NodeId} (hform : a.form? n = some (.classDef decorators title arguments body)) :
    Binds a root x C (a.times x n)
      (Binder.walkClass a walk context n decorators title arguments body) fun _ => [] := by
  obtain ⟨owner, hmem, henc⟩ := hs.enclosed
  have htimes : (((decorators ++ arguments).map (a.times x)).sum +
      ((if n = x then 1 else 0) + a.times x body)) = a.times x n := by
    have htitle := times_name h (not_isPassedOver_of_opens hx)
      (h.parts n _ hform _ List.mem_cons_self)
    rw [times_of_form? h hform]
    simp [Form.children, htitle]
    omega
  refine counted ?_ htimes
  -- Decorators and arguments are walked before the scope is opened, the body after that.
  refine (walkOutside h hwalk hs hform (List.Subset.refl _)).bind fun _ => ?_
  refine (declareNode (d := .plain .class n) (by simp [Declaration.plain])).andThen fun _ => ?_
  refine (openScope hs.reaches (Arena.opens_of_form? hform rfl) hmem henc).bind fun scope => ?_
  exact walkInside h hwalk { context with scope } hs.reaches hform
    (List.mem_singleton.2 rfl) (by simp) List.mem_cons_self

/-- A function may be walked. -/
theorem walkFunction (hs : Stands a root C context.scope n)
    {decorators parameters : List NodeId} {isAsync : Bool} {title body : NodeId}
    {returnHint : Option NodeId} (hform : a.form? n =
      some (.function decorators isAsync title parameters returnHint body)) :
    Binds a root x C (a.times x n)
      (Binder.walkFunction a walk context n decorators title parameters returnHint body)
      fun _ => [] := by
  obtain ⟨owner, hmem, henc⟩ := hs.enclosed
  have htimes : (decorators.map (a.times x)).sum + ((parameters.map (a.times x)).sum +
      ((returnHint.toList.map (a.times x)).sum + ((if n = x then 1 else 0) + a.times x body))) =
        a.times x n := by
    have htitle := times_name h (not_isPassedOver_of_opens hx)
      (h.parts n _ hform _ List.mem_cons_self)
    rw [times_of_form? h hform]
    simp [Form.children, htitle]
    omega
  have hparameters : ∀ p ∈ parameters, a.kind? p = some .parameter := fun p hp =>
    h.parts n _ hform (p, .kind .parameter) (List.mem_cons_of_mem _ (mem_allOf.2 ⟨hp, rfl⟩))
  refine counted ?_ htimes
  refine (walkOutside h hwalk hs hform (by simp [Form.outside])).bind fun _ => ?_
  refine (walkParameters h hx hwalk hs hform (by simp [Form.outside]) hparameters).bind fun _ => ?_
  refine (walkOutside h hwalk hs hform (by simp [Form.outside])).bind fun _ => ?_
  refine (declareNode (d := .plain .function n) (by simp [Declaration.plain])).andThen fun _ => ?_
  refine (read fun _ => rfl).andThen fun around => ?_
  refine (openScope hs.reaches (Arena.opens_of_form? hform rfl) hmem henc).bind fun scope => ?_
  refine (declareParameters scope parameters).andThen fun _ => ?_
  exact walkInside h hwalk ⟨scope, _⟩ hs.reaches hform (List.mem_singleton.2 rfl)
    (by simp) List.mem_cons_self

/-- A function without a name may be walked. -/
theorem walkLambda (hs : Stands a root C context.scope n) {parameters : List NodeId}
    {expression : NodeId} (hform : a.form? n = some (.lambda parameters expression)) :
    Binds a root x C (a.times x n) (Binder.walkLambda a walk context n parameters expression)
      fun _ => [] := by
  obtain ⟨owner, hmem, henc⟩ := hs.enclosed
  have htimes : (parameters.map (a.times x)).sum + ((if n = x then 1 else 0) +
      a.times x expression) = a.times x n := by
    rw [times_of_form? h hform]
    simp [Form.children]
    omega
  have hparameters : ∀ p ∈ parameters, a.kind? p = some .parameter := fun p hp =>
    h.parts n _ hform (p, .kind .parameter) (List.mem_append_left _ (mem_allOf.2 ⟨hp, rfl⟩))
  refine counted ?_ htimes
  refine (walkParameters h hx hwalk hs hform (List.Subset.refl _) hparameters).bind fun _ => ?_
  refine (openScope hs.reaches (Arena.opens_of_form? hform rfl) hmem henc).bind fun scope => ?_
  refine (declareParameters scope parameters).andThen fun _ => ?_
  exact walkInside h hwalk ⟨scope, _⟩ hs.reaches hform (List.mem_singleton.2 rfl)
    (by simp) List.mem_cons_self

/-! ### Comprehensions -/

omit hx in
/-- What the first clause of a comprehension goes through may be walked around it, before the
rest. -/
theorem walkFirstIterable (hs : Stands a root C context.scope n) {expression : NodeId}
    {clauses : List NodeId} (hform : a.form? n = some (.comprehension expression clauses))
    {k : Nat} {rest : Unit → Binder Unit} (hrest : ∀ r, Binds a root x C k (rest r) fun _ => []) :
    Binds a root x C (outerTimes a x clauses + k)
      (match clauses.head?.bind a.form? with
        | some (.comprehensionFor _ _ iterable) => do
          let r ← walk context iterable
          rest r
        | _ => rest ()) fun _ => [] := by
  unfold outerTimes
  split
  · rename_i isAsync target iterable hbind
    obtain ⟨clause, hhead, hfor⟩ := Option.bind_eq_some_iff.1 hbind
    obtain ⟨others, rfl⟩ := List.head?_eq_some_iff.1 hhead
    obtain ⟨owner, hmem, henc⟩ := hs.enclosed
    have hclause := Arena.mem_children_of_form? hform (List.mem_cons_of_mem _ List.mem_cons_self)
    have hpart : iterable ∈ (Form.comprehensionFor isAsync target iterable).children := by
      simp [Form.children]
    have hiterable := Arena.mem_children_of_form? hfor hpart
    have hstands : Stands a root C context.scope iterable :=
      ⟨(hs.reaches.tail hclause).tail hiterable, ⟨owner, hmem, .iterable hform hfor henc⟩,
        fun _ _ _ _ => Stands.isFirstClause_eq_false h hfor hpart (by simp)⟩
    have hlt := Nat.lt_trans (h.lt clause iterable hiterable) (h.lt n clause hclause)
    exact (hwalk iterable hlt C context fun _ => hstands).bind hrest
  · exact counted (hrest ()) (Nat.zero_add k).symm

omit hx in
/-- A clause of a comprehension may be walked inside. -/
theorem walkClause (inner : WalkContext) (hreaches : a.Reaches root n)
    {expression clause : NodeId} {clauses : List NodeId}
    (hform : a.form? n = some (.comprehension expression clauses))
    (hclause : clause ∈ clauses) (hscope : (inner.scope, n) ∈ C) {isFirst : Bool}
    (hfirst : isFirst = false → Bindings.isFirstClause a clause = false) :
    Binds a root x C (clauseTimes a x clause isFirst)
      (Binder.walkClause a walk inner clause isFirst) fun _ => [] := by
  have hchild := Arena.mem_children_of_form? hform (List.mem_cons_of_mem _ hclause)
  have hlt := h.lt n clause hchild
  obtain ⟨form, hcform⟩ := h.exists_form hchild
  have hstands := fun hfor => Stands.clauseOf (C := C) hreaches hform hclause hscope hfor
  unfold Binder.walkClause clauseTimes
  rw [hcform]
  cases form with
  | comprehensionFor isAsync target iterable =>
    have hbelow : ∀ {part}, part ∈ [target, iterable] → part < n := fun hpart =>
      Nat.lt_trans (h.lt clause _ (Arena.mem_children_of_form? hcform hpart)) hlt
    have htarget := Stands.targetOf h hreaches hform hclause hscope hcform
    refine (bindNames h htarget).andThen fun _ => ?_
    refine (hwalk target (hbelow (by simp)) C inner fun _ => htarget).bind fun _ => ?_
    cases isFirst with
    | true => exact ret
    | false =>
      have hiterable := (hstands fun _ _ _ _ => hfirst rfl).outside h hcform (n := iterable)
        (by simp [Form.outside, Form.children])
      exact hwalk iterable (hbelow (by simp)) C inner fun _ => hiterable
  | _ =>
    refine hwalk clause hlt C inner fun _ => hstands fun _ _ _ hfor => ?_
    rw [hcform] at hfor
    cases hfor

/-- A comprehension may be walked. -/
theorem walkComprehension (hs : Stands a root C context.scope n) {expression : NodeId}
    {clauses : List NodeId} (hform : a.form? n = some (.comprehension expression clauses)) :
    Binds a root x C (a.times x n)
      (Binder.walkComprehension a walk context n expression clauses) fun _ => [] := by
  obtain ⟨owner, hmem, henc⟩ := hs.enclosed
  have htimes : outerTimes a x clauses + ((if n = x then 1 else 0) +
      ((clauses.zipIdx.map fun e => clauseTimes a x e.1 (e.2 == 0)).sum + a.times x expression)) =
        a.times x n := by
    have hclauses := outerTimes_add h (not_isPassedOver_of_opens hx) clauses
    rw [times_of_form? h hform, Form.children, List.map_cons, List.sum_cons, ← hclauses]
    omega
  have hnodup : (expression :: clauses).Nodup := h.nodup_children hform
  refine counted ?_ htimes
  unfold Binder.walkComprehension
  extract_lets rest
  -- What the first clause goes through comes before the scope of the comprehension is opened.
  refine walkFirstIterable h hwalk hs hform fun _ => ?_
  refine (openScope hs.reaches (Arena.opens_of_form? hform rfl) hmem henc).bind fun scope => ?_
  have hscope : (scope, n) ∈ [(scope, n)] ++ C := List.mem_cons_self
  refine (forIn fun e he => ⟨_, rfl, walkClause h hwalk { context with scope }
    hs.reaches hform (List.fst_mem_of_mem_zipIdx he) hscope fun hlater => ?_⟩).bind fun _ => ?_
  · -- No clause but the one at the front is the first one of its comprehension.
    refine Bool.eq_false_iff.2 fun hfirst => ?_
    obtain ⟨q, other, others, hq⟩ := h.isFirstClause_iff.1 hfirst
    have hmem := List.fst_mem_of_mem_zipIdx he
    obtain ⟨-, heq⟩ := h.form_unique hform (List.mem_cons_of_mem _ hmem) hq
      (List.mem_cons_of_mem _ List.mem_cons_self)
    obtain ⟨-, rfl⟩ := Form.comprehension.inj heq
    have hget := List.mem_zipIdx_iff_getElem?.1 he
    obtain ⟨j, hj⟩ := Nat.exists_eq_succ_of_ne_zero (by simpa using hlater)
    rw [hj, List.getElem?_cons_succ] at hget
    exact (List.nodup_cons.1 (List.nodup_cons.1 hnodup).2).1 (List.mem_of_getElem? hget)
  · refine hwalk expression (h.lt n expression (Arena.mem_children_of_form? hform
      List.mem_cons_self)) _ { context with scope } fun _ => .inside h hs.reaches hform
      List.mem_cons_self hscope fun other others heq => ?_
    cases heq
    exact absurd List.mem_cons_self (List.nodup_cons.1 hnodup).1

/-- What opens no scope may be walked. -/
theorem walkPlain (hform : a.form? n = some form)
    (hvisit : Binds a root x C 0 (Binder.visitPlain a context n form) fun _ => [])
    (hkind : ScopeKind.ofNode? form.kind = none)
    (hparts : ∀ m ∈ form.children, Comes a root C context.scope m) :
    Binds a root x C (a.times x n) (do
      if ← Binder.visitPlain a context n form then
        for child in form.children do walk context child) fun _ => [] := by
  refine counted (hvisit.bindOf (P := (· = !form.namesOnly)) (fun b _ => visitPlain_result b)
    fun goesOn hgoesOn => ?_) (Nat.zero_add _)
  subst hgoesOn
  rw [times_plain h hx hform hkind]
  cases hnames : form.namesOnly with
  | true => exact counted ret (times_namesOnly h (not_isPassedOver_of_opens hx) hform hnames).symm
  | false =>
    exact walkEach hwalk fun m hm =>
      ⟨h.lt n m (Arena.mem_children_of_form? hform hm), hparts m hm⟩

/-- A node may be walked with all that is below it. -/
theorem walkNode (hcomes : Comes a root C context.scope n) :
    Binds a root x C (a.times x n) (Binder.walkNode a walk context n) fun _ => [] := by
  unfold Binder.walkNode
  cases hform : a.form? n with
  | none =>
    have hkind : a.kind? n = none := by rw [Arena.kind?_eq, hform]; rfl
    have hne : n ≠ x := by
      rintro rfl
      simp [hkind] at hx
    have hchildren : a.children n = [] := by rw [Arena.children_eq, hform]; rfl
    exact counted ret (Arena.times_eq_zero_of_children hchildren hne).symm
  | some form =>
    have hkind : a.kind? n = some form.kind := Arena.kind?_of_form? hform
    have hstands : form.kind ≠ .name → Stands a root C context.scope n := fun hne =>
      hcomes (by simpa [hkind] using hne)
    cases form with
    | classDef => exact walkClass h hx hwalk (hstands (by simp [Form.kind])) hform
    | function => exact walkFunction h hx hwalk (hstands (by simp [Form.kind])) hform
    | lambda => exact walkLambda h hx hwalk (hstands (by simp [Form.kind])) hform
    | comprehension => exact walkComprehension h hx hwalk (hstands (by simp [Form.kind])) hform
    | module =>
      -- The one module is the root, which is part of nothing.
      obtain ⟨owner, -, henc⟩ := (hstands (by simp [Form.kind])).enclosed
      obtain ⟨p, hp⟩ := henc.exists_parent h
      rw [(h.kind_root n).1 hkind, h.free] at hp
      cases hp
    | name => exact walkPlain h hx hwalk hform ret rfl (by simp [Form.children])
    | parameter category title hint defaultValue =>
      refine walkPlain h hx hwalk hform ret rfl fun m hm hname => ?_
      -- The title of a parameter is a name, which may be come to anywhere.
      rw [Form.children, List.append_assoc, List.mem_append] at hm
      rcases hm with hm | hm
      · exact absurd (h.parts n _ hform (m, .kind .name)
          (List.mem_append_left _ (mem_allOf.2 ⟨hm, rfl⟩))) hname
      · exact (hstands (by simp [Form.kind])).outside h hform hm
    | _ =>
      have hs := hstands (by simp [Form.kind])
      exact walkPlain h hx hwalk hform (visitPlain h hs hform rfl) rfl fun m hm _ =>
        hs.outside h hform hm

end Walks

end Binds

end TypeProbe
