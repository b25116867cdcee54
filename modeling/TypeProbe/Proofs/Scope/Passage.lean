import TypeProbe.Proofs.Scope.Once
import TypeProbe.Proofs.Tree.Finding

/-!
# What a walk comes to

The body of a function is walked in the scope of the function, down to the parts that open scopes of
their own (`Arena.Shares`). `Bindings.Passes` says of a run that it comes to another one and takes
nothing back before and after it, so what is found at the one place can be carried to another. A
walk comes to every part that shares the scope (`Binder.exists_passes`), to the parts of a construct
in their order (`exists_passes_parts`), and to the declaration of each name that is given a value
(`exists_passes_assignment`).

Together, where a statement says that a name stands for that of a function around, this is noted
when the walk comes to an assignment behind it (`exists_passes_after`).
-/

namespace TypeProbe

namespace Bindings

/-- Between `b` and `b'` the run of `q` from `b₁` is come to; before that and after that nothing is
taken back. -/
structure Passes {β : Type} (b b' : Bindings) (q : Binder β) (b₁ : Bindings) : Prop where
  /-- What comes before. -/
  before : b.Grows b₁
  /-- What comes after. -/
  after : (q.run b₁).2.Grows b'

/-- What is come to in the run is come to. -/
theorem Passes.trans {β γ : Type} {q : Binder β} {r : Binder γ} {b b' b₁ b₂ : Bindings}
    (h : b.Passes b' q b₁) (h' : b₁.Passes (q.run b₁).2 r b₂) : b.Passes b' r b₂ :=
  ⟨h.before.trans h'.before, h'.after.trans h.after⟩

/-- A name of a scope stands for that of a function around. -/
def HasNonlocal (b : Bindings) (i : ScopeId) (x : String) : Prop :=
  ∃ s, b.scope? i = some s ∧ x ∈ s.nonlocals

/-- A scope is that of a function. -/
def IsFunction (b : Bindings) (i : ScopeId) : Prop := ∃ s, b.scope? i = some s ∧ s.kind = .function

variable {b b' : Bindings} {i : ScopeId} {x : String}

/-- A name goes on to stand for that of a function around. -/
theorem HasNonlocal.grows (h : b.HasNonlocal i x) (hgrows : b.Grows b') : b'.HasNonlocal i x := by
  obtain ⟨s, hs, hx⟩ := h
  obtain ⟨s', hs', hg⟩ := hgrows.scopes i s hs
  exact ⟨s', hs', hg.nonlocals hx⟩

/-- A scope goes on to be that of a function. -/
theorem IsFunction.grows (h : b.IsFunction i) (hgrows : b.Grows b') : b'.IsFunction i := by
  obtain ⟨s, hs, hkind⟩ := h
  obtain ⟨s', hs', hg⟩ := hgrows.scopes i s hs
  exact ⟨s', hs', hg.kind.trans hkind⟩

/-- A scope of a function is there. -/
theorem IsFunction.lt_size (h : b.IsFunction i) : i < b.scopes.size := by
  obtain ⟨s, hs, -⟩ := h
  exact lt_size_of_scope? hs

end Bindings

/-! ## Steps for the elements of a list -/

namespace Binder

/-- The bindings after a step for each element of a list. -/
def runEach {β : Type} (step : β → Binder Unit) (ys : List β) (b : Bindings) : Bindings :=
  ys.foldl (fun b y => ((step y).run b).2) b

variable {β : Type} {step : β → Binder Unit} {ys front back : List β} {y : β} {b : Bindings}
  {i : ScopeId}

/-- A loop makes its steps one after the other. -/
theorem run_forIn (step : β → Binder Unit) (ys : List β) (b : Bindings) :
    ((forIn ys PUnit.unit fun y _ => do
      step y
      return ForInStep.yield PUnit.unit).run b).2 = runEach step ys b := by
  induction ys generalizing b with
  | nil => rfl
  | cons y ys ih =>
    rw [List.forIn_cons, bind_assoc]
    exact ih ((step y).run b).2

/-- Steps for two lists are made one after the other. -/
theorem runEach_append (step : β → Binder Unit) (ys zs : List β) (b : Bindings) :
    runEach step (ys ++ zs) b = runEach step zs (runEach step ys b) := List.foldl_append

/-- Steps that take nothing back take nothing back together. -/
theorem grows_runEach (hstep : ∀ y ∈ ys, ∀ b : Bindings, i < b.scopes.size →
    b.Grows ((step y).run b).2) (hi : i < b.scopes.size) : b.Grows (runEach step ys b) := by
  induction ys generalizing b with
  | nil => exact .refl b
  | cons y ys ih =>
    have hgrows := hstep y List.mem_cons_self b hi
    exact hgrows.trans (ih (fun z hz => hstep z (List.mem_cons_of_mem _ hz)) (hgrows.lt_size hi))

/-- Each of the steps is come to. -/
theorem passes_runEach (hstep : ∀ y ∈ ys, ∀ b : Bindings, i < b.scopes.size →
    b.Grows ((step y).run b).2) (hi : i < b.scopes.size) (hys : ys = front ++ y :: back) :
    b.Passes (runEach step ys b) (step y) (runEach step front b) := by
  subst hys
  have hfront : b.Grows (runEach step front b) :=
    grows_runEach (fun z hz => hstep z (by simp [hz])) hi
  have hsize := hfront.lt_size hi
  have hy := hstep y (by simp) _ hsize
  refine ⟨hfront, ?_⟩
  rw [runEach_append]
  exact grows_runEach (fun z hz => hstep z (by simp [hz])) (hy.lt_size hsize)

end Binder

/-! ## Where the parts of a construct are walked -/

/-- Whether the parts of a construct are walked in the scope in which it stands: it opens no scope,
and it is more than a list of names. -/
def Form.sharesScope (form : Form) : Bool :=
  (ScopeKind.ofNode? form.kind).isNone && !form.namesOnly

/-- A node is part of another one, of which the parts are walked in one scope with it. -/
def Arena.IsPart (a : Arena) (p n : NodeId) : Prop :=
  ∃ form, a.form? p = some form ∧ form.sharesScope = true ∧ n ∈ form.children

/-- A node is found at or below another one, in the same scope. -/
def Arena.Shares (a : Arena) : NodeId → NodeId → Prop := Relation.ReflTransGen a.IsPart

/-- A part comes before the construct. -/
theorem Arena.Rooted.lt_part {a : Arena} {root n m : NodeId} {form : Form} {fuel : Nat}
    (h : a.Rooted root) (hform : a.form? n = some form) (hm : m ∈ form.children)
    (hn : n < fuel + 1) : m < fuel :=
  Nat.lt_of_lt_of_le (h.lt n m (mem_children_of_form? hform hm)) (Nat.lt_succ_iff.1 hn)

/-- What shares the scope is found at or below. -/
theorem Arena.Shares.reaches {a : Arena} {p n : NodeId} (h : a.Shares p n) : a.Reaches p n := by
  induction h with
  | refl => exact .refl
  | tail _ hpart ih =>
    obtain ⟨form, hform, -, hn⟩ := hpart
    exact ih.tail (mem_children_of_form? hform hn)

/-- The targets to which a construct assigns. -/
def Form.assigned : Form → List NodeId
  | .assignment left _ => [left]
  | .augmentedAssignment _ left _ => [left]
  | .assignmentExpression title _ => [title]
  | .forLoop _ target .. => [target]
  | .withItem _ target => target.toList
  | _ => []

/-- The targets to which a construct assigns are parts of it. -/
theorem Form.assigned_subset_children (form : Form) : form.assigned ⊆ form.children := by
  cases form <;> simp [assigned, children]

/-- A construct gives a value to a name or a member. -/
def Arena.Assigns (a : Arena) (n t : NodeId) : Prop :=
  ∃ form u, a.form? n = some form ∧ u ∈ form.assigned ∧ a.Targets u t

/-- A node starts before another one in the text. -/
def Arena.StartsBefore (a : Arena) (n m : NodeId) : Prop :=
  ∃ r s, a.range? n = some r ∧ a.range? m = some s ∧ r.start < s.start

namespace Binder

variable {a : Arena} {root n p : NodeId} {form : Form} {context : WalkContext} {fuel : Nat}
  {b : Bindings}

/-- Parts that are walked in the scope of the construct are walked one after the other. -/
theorem run_walk_of_sharesScope (hform : a.form? n = some form)
    (hshares : form.sharesScope = true) :
    ((walk a (fuel + 1) context n).run b).2 = runEach (walk a fuel context) form.children
      ((visitPlain a context n form).run b).2 := by
  have hplain : walk a (fuel + 1) context n = (do
      if ← visitPlain a context n form then
        for child in form.children do walk a fuel context child) := by
    show walkNode a (walk a fuel) context n = _
    unfold walkNode
    rw [hform]
    cases form <;> first | rfl | cases hshares
  have hvisit : ((visitPlain a context n form).run b).1 = !form.namesOnly :=
    Binds.visitPlain_result b
  have hnames : form.namesOnly = false := by
    rw [Form.sharesScope, Bool.and_eq_true, Bool.not_eq_true'] at hshares
    exact hshares.2
  rw [hplain, StateT.run_bind]
  show ((if ((visitPlain a context n form).run b).1 = true then _ else _ : Binder Unit).run
    ((visitPlain a context n form).run b).2).2 = _
  rw [hvisit, hnames, Bool.not_false, if_pos rfl]
  exact run_forIn (walk a fuel context) form.children _

/-- A walk takes nothing back. -/
theorem grows_walk (h : a.Rooted root) (hn : n < fuel) (hscope : context.scope < b.scopes.size) :
    b.Grows ((walk a fuel context n).run b).2 :=
  (Notes.walk (t := root) h fuel hn context b hscope).grows

/-- What a construct notes by itself takes nothing back. -/
theorem grows_visitPlain (h : a.Rooted root) (hform : a.form? n = some form)
    (hscope : context.scope < b.scopes.size) :
    b.Grows ((visitPlain a context n form).run b).2 := by
  obtain ⟨k, hnotes, -⟩ := Notes.visitPlain (t := root) (i := context.scope) h hform
  exact (hnotes b hscope).grows

/-- A part is walked that shares the scope, after the parts in front of it. -/
theorem passes_part (h : a.Rooted root) (hp : p < fuel + 1) (hscope : context.scope < b.scopes.size)
    (hform : a.form? p = some form) (hshares : form.sharesScope = true)
    {front back : List NodeId} (hchildren : form.children = front ++ n :: back) :
    b.Passes ((walk a (fuel + 1) context p).run b).2 (walk a fuel context n)
      (runEach (walk a fuel context) front ((visitPlain a context p form).run b).2) := by
  have hvisit := grows_visitPlain h hform hscope
  rw [run_walk_of_sharesScope hform hshares]
  have hpasses := passes_runEach (fun m hm b hb => grows_walk h (h.lt_part hform hm hp) hb)
    (hvisit.lt_size hscope) hchildren
  exact ⟨hvisit.trans hpasses.before, hpasses.after⟩

/-- Of two parts that share the scope the earlier one is walked before the later one. -/
theorem exists_passes_parts (h : a.Rooted root) (hp : p < fuel + 1)
    (hscope : context.scope < b.scopes.size) (hform : a.form? p = some form)
    (hshares : form.sharesScope = true) {m : NodeId} {front mid back : List NodeId}
    (hchildren : form.children = front ++ m :: (mid ++ n :: back)) :
    ∃ b₁ b₂, b.Grows b₁ ∧ ((walk a fuel context m).run b₁).2.Passes
      ((walk a (fuel + 1) context p).run b).2 (walk a fuel context n) b₂ := by
  have hgrows : ∀ k ∈ form.children, ∀ b : Bindings, context.scope < b.scopes.size →
      b.Grows ((walk a fuel context k).run b).2 :=
    fun k hk b hb => grows_walk h (h.lt_part hform hk hp) hb
  -- Behind the walk of the first part the steps for the others are left.
  have hfirst := passes_part h hp hscope hform hshares hchildren
  generalize hb₁ : runEach (walk a fuel context) front
    ((visitPlain a context p form).run b).2 = b₁ at hfirst
  have hsize := hfirst.before.lt_size hscope
  have hwalk := hgrows m (by simp [hchildren]) b₁ hsize
  have hsecond := passes_runEach (fun k hk => hgrows k (hchildren ▸ List.mem_append_right _
    (List.mem_cons_of_mem _ hk))) (hwalk.lt_size hsize) rfl
  have hall : ((walk a (fuel + 1) context p).run b).2 =
      runEach (walk a fuel context) (mid ++ n :: back) ((walk a fuel context m).run b₁).2 := by
    rw [run_walk_of_sharesScope hform hshares, hchildren, runEach_append, hb₁]
    rfl
  exact ⟨b₁, _, hfirst.before, hall ▸ hsecond⟩

/-- A part is walked that shares the scope. -/
theorem exists_passes_part (h : a.Rooted root) (hp : p < fuel + 1)
    (hscope : context.scope < b.scopes.size) (hpart : a.IsPart p n) :
    ∃ b₁, b.Passes ((walk a (fuel + 1) context p).run b).2 (walk a fuel context n) b₁ := by
  obtain ⟨form, hform, hshares, hn⟩ := hpart
  obtain ⟨front, back, hchildren⟩ := List.append_of_mem hn
  exact ⟨_, passes_part h hp hscope hform hshares hchildren⟩

/-- What shares the scope is walked there. -/
theorem exists_passes (h : a.Rooted root) (hshares : a.Shares p n) (hp : p < fuel)
    (hscope : context.scope < b.scopes.size) :
    ∃ rest b₁, n < rest ∧
      b.Passes ((walk a fuel context p).run b).2 (walk a rest context n) b₁ := by
  induction hshares using Relation.ReflTransGen.head_induction_on generalizing fuel b with
  | refl => exact ⟨fuel, b, hp, .refl b, .refl _⟩
  | @head p m hpart _ ih =>
    obtain ⟨fuel, rfl⟩ := Nat.exists_eq_add_one_of_ne_zero (Nat.ne_zero_of_lt hp)
    -- The walk of the part uses up one step of the fuel, but the part comes before the whole.
    obtain ⟨b₁, hpasses⟩ := exists_passes_part h hp hscope hpart
    obtain ⟨form, hform, -, hm⟩ := hpart
    obtain ⟨rest, b₂, hrest, hpasses'⟩ :=
      ih (h.lt_part hform hm hp) (hpasses.before.lt_size hscope)
    exact ⟨rest, b₂, hrest, hpasses.trans hpasses'⟩

/-! ## Names that stand for those of functions around -/

/-- A statement notes its names. -/
theorem hasNonlocal_nonlocal {names : List NodeId} {x : String}
    (hform : a.form? n = some (.nonlocal names)) (hx : x ∈ names.filterMap a.nameOf?)
    (hscope : context.scope < b.scopes.size) :
    ((walk a (fuel + 1) context n).run b).2.HasNonlocal context.scope x := by
  obtain ⟨s, hs⟩ := Bindings.exists_scope? hscope
  have hrun : ((walk a (fuel + 1) context n).run b).2 = { b with
      scopes := b.scopes.modify context.scope fun s =>
        { s with nonlocals := addNames s.nonlocals (names.filterMap a.nameOf?) } } := by
    show ((walkNode a (walk a fuel) context n).run b).2 = _
    unfold walkNode
    rw [hform]
    rfl
  refine ⟨{ s with nonlocals := addNames s.nonlocals (names.filterMap a.nameOf?) }, ?_,
    Binds.mem_addNames.2 (.inr hx)⟩
  rw [hrun, Bindings.scope?, Array.getElem?_modify, if_pos rfl, ← Bindings.scope?, hs]
  rfl

/-- What a statement has noted that shares the scope stays noted. -/
theorem hasNonlocal_walk (h : a.Rooted root) {names : List NodeId} {x : String}
    (hshares : a.Shares p n) (hform : a.form? n = some (.nonlocal names))
    (hx : x ∈ names.filterMap a.nameOf?) (hp : p < fuel) (hscope : context.scope < b.scopes.size) :
    ((walk a fuel context p).run b).2.HasNonlocal context.scope x := by
  obtain ⟨rest, b₁, hrest, hpasses⟩ := exists_passes h hshares hp hscope
  obtain ⟨rest, rfl⟩ := Nat.exists_eq_add_one_of_ne_zero (Nat.ne_zero_of_lt hrest)
  refine Bindings.HasNonlocal.grows ?_ hpasses.after
  exact hasNonlocal_nonlocal hform hx (hpasses.before.lt_size hscope)

/-! ## Assignments -/

/-- What an entry of a target binds is declared. -/
theorem exists_passes_entries (h : a.Rooted root) {m t : NodeId} {x : String}
    {entries : List NodeId} {source : Option NodeId} {path : List Nat} (hm : m ∈ entries)
    (hscope : context.scope < b.scopes.size)
    (hentry : ∀ (k : Nat) (b : Bindings), context.scope < b.scopes.size → ∃ d b₁,
      d.node = t ∧ d.kind = .variable ∧
        b.Passes ((bindTarget a context fuel m source none (path ++ [k])).run b).2
          (declare context.scope x d) b₁) :
    ∃ d b₁, d.node = t ∧ d.kind = .variable ∧
      b.Passes (runEach (fun entry : NodeId × Nat =>
        bindTarget a context fuel entry.1 source none (path ++ [entry.2])) entries.zipIdx b)
        (declare context.scope x d) b₁ := by
  obtain ⟨k, hk⟩ := List.mem_iff_getElem?.1 hm
  have hmem : (m, k) ∈ entries.zipIdx := List.mem_zipIdx_iff_getElem?.2 hk
  obtain ⟨front, back, hzip⟩ := List.append_of_mem hmem
  have hgrows : ∀ entry ∈ entries.zipIdx, ∀ b : Bindings, context.scope < b.scopes.size →
      b.Grows ((bindTarget a context fuel entry.1 source none (path ++ [entry.2])).run b).2 :=
    fun entry _ b hb => (Notes.bindTarget (t := t) h fuel entry.1 _ _ _ b hb).grows
  have hpasses := passes_runEach hgrows hscope hzip
  obtain ⟨d, b₁, hnode, hkind, hpasses'⟩ := hentry k _ (hpasses.before.lt_size hscope)
  exact ⟨d, b₁, hnode, hkind, hpasses.trans hpasses'⟩

/-- What a target binds is declared, if it is a name. -/
theorem exists_passes_bindTarget (h : a.Rooted root) {u t : NodeId} {token : Token} {x : String}
    (htargets : a.Targets u t) (hname : a.form? t = some (.name token x)) (hu : u < fuel)
    (hscope : context.scope < b.scopes.size) (source hint : Option NodeId) (path : List Nat) :
    ∃ d b₁, d.node = t ∧ d.kind = .variable ∧
      b.Passes ((bindTarget a context fuel u source hint path).run b).2
        (declare context.scope x d) b₁ := by
  induction htargets generalizing fuel b source hint path with
  | @name n token' value hform =>
    obtain ⟨fuel, rfl⟩ := Nat.exists_eq_add_one_of_ne_zero (Nat.ne_zero_of_lt hu)
    obtain ⟨-, rfl⟩ := Form.name.inj (Option.some.inj (hform.symm.trans hname))
    refine ⟨⟨.variable, n, source, hint, path⟩, b, rfl, rfl, .refl b, ?_⟩
    unfold bindTarget
    rw [hform]
    exact .refl _
  | member hform =>
    rw [hform] at hname
    cases hname
  | @part n m t form hform hm _ ih =>
    obtain ⟨fuel, rfl⟩ := Nat.exists_eq_add_one_of_ne_zero (Nat.ne_zero_of_lt hu)
    have hlt := h.lt_part hform (form.targetParts_sublist_children.subset hm) hu
    -- An entry is bound with its place among the entries as the last step of the path.
    have hentries := fun entries (hm : m ∈ entries) => exists_passes_entries h hm hscope
      fun k b hb => ih hname hlt hb source none (path ++ [k])
    unfold bindTarget
    rw [hform]
    cases form with
    | typeHint value hint' =>
      obtain rfl := List.mem_singleton.1 hm
      exact ih hname hlt hscope source (some hint') path
    | tuple entries parens => exact run_forIn (β := NodeId × Nat) _ _ b ▸ hentries entries hm
    | list entries => exact run_forIn (β := NodeId × Nat) _ _ b ▸ hentries entries hm
    | unpack expression =>
      obtain rfl := List.mem_singleton.1 hm
      exact ih hname hlt hscope none none []
    | _ => cases hm

/-- A function is no comprehension. -/
theorem beyondComprehensions_of_isFunction {i : ScopeId} (hi : b.IsFunction i) (fuel : Nat) :
    beyondComprehensions b fuel i = i := by
  obtain ⟨⟨kind, _, _, _, _, _⟩, hs, rfl⟩ := hi
  cases fuel with
  | zero => rfl
  | succ fuel =>
    unfold beyondComprehensions
    rw [hs]

/-- A construct binds the targets that it assigns to. -/
theorem exists_run_visitPlain {u : NodeId} (hu : u ∈ form.assigned)
    (hscope : b.IsFunction context.scope) :
    ∃ source, ((visitPlain a context n form).run b).2 =
      ((bindTarget a context (a.size + 1) u source none []).run b).2 := by
  cases form with
  | assignment | augmentedAssignment | forLoop =>
    obtain rfl := List.mem_singleton.1 hu
    exact ⟨_, rfl⟩
  | withItem expression target =>
    obtain rfl := Option.mem_toList.1 hu
    exact ⟨_, rfl⟩
  | assignmentExpression title right =>
    obtain rfl := List.mem_singleton.1 hu
    have hbeyond := beyondComprehensions_of_isFunction hscope b.scopes.size
    refine ⟨some right, ?_⟩
    show ((bind a { context with scope := beyondComprehensions b b.scopes.size context.scope }
      u (some right) none).run b).2 = _
    rw [hbeyond]
    rfl
  | _ => cases hu

/-- A name is declared that a construct assigns to, where the construct shares the scope of a
function. -/
theorem exists_passes_assignment (h : a.Rooted root) {t : NodeId} {token : Token} {x : String}
    (hshares : a.Shares p n) (hassigns : a.Assigns n t) (hname : a.form? t = some (.name token x))
    (hp : p < fuel) (hscope : b.IsFunction context.scope) :
    ∃ d b₁, d.node = t ∧ d.kind = .variable ∧
      b.Passes ((walk a fuel context p).run b).2 (declare context.scope x d) b₁ := by
  obtain ⟨rest, b₁, hrest, hpasses⟩ := exists_passes h hshares hp hscope.lt_size
  obtain ⟨rest, rfl⟩ := Nat.exists_eq_add_one_of_ne_zero (Nat.ne_zero_of_lt hrest)
  obtain ⟨form, u, hform, hu, htargets⟩ := hassigns
  have hscope₁ := hscope.grows hpasses.before
  have hsize : u < a.size + 1 := by
    have hchild := Arena.mem_children_of_form? hform (form.assigned_subset_children hu)
    exact Nat.lt_succ_of_lt (Nat.lt_trans (h.lt n u hchild) (Arena.lt_size_of_form? hform))
  have hopen : form.sharesScope = true := by
    cases form <;> first | rfl | cases hu
  obtain ⟨source, hvisit⟩ := exists_run_visitPlain (a := a) (n := n) hu hscope₁
  obtain ⟨d, b₂, hnode, hkind, hdeclare⟩ :=
    exists_passes_bindTarget h htargets hname hsize hscope₁.lt_size source none []
  rw [← hvisit] at hdeclare
  -- What the parts of the construct note comes after its targets have been declared.
  have hgrows : ((visitPlain a context n form).run b₁).2.Grows
      ((walk a (rest + 1) context n).run b₁).2 := by
    rw [run_walk_of_sharesScope hform hopen]
    exact grows_runEach (fun m hm b hb => grows_walk h (h.lt_part hform hm hrest) hb)
      ((grows_visitPlain h hform hscope₁.lt_size).lt_size hscope₁.lt_size)
  exact ⟨d, b₂, hnode, hkind, hpasses.trans ⟨hdeclare.before, hdeclare.after.trans hgrows⟩⟩

end Binder

/-- A node that starts before another one is not found below it. -/
theorem Arena.StartsBefore.not_reaches {a : Arena} {hi : Nat} {n m : NodeId}
    (h : a.StartsBefore n m) (hnested : Nested a hi) : ¬ a.Reaches m n := by
  intro hreach
  obtain ⟨r, s, hr, hs, hlt⟩ := h
  obtain ⟨s', hs', hstart, -⟩ := hnested.range_of_reaches hreach hr
  obtain rfl := Option.some.inj (hs.symm.trans hs')
  exact absurd hlt (Nat.not_lt.2 hstart)

/-- A node that starts before another one is found below an earlier part. -/
theorem Arena.StartsBefore.exists_append {a : Arena} {hi : Nat} {p c d n m : NodeId}
    (h : a.StartsBefore n m) (hnested : Nested a hi) (hc : c ∈ a.children p)
    (hd : d ∈ a.children p) (hcd : c ≠ d) (hn : a.Reaches c n) (hm : a.Reaches d m) :
    ∃ front mid back, a.children p = front ++ c :: (mid ++ d :: back) := by
  obtain ⟨r, s, hr, hs, hlt⟩ := h
  obtain ⟨rc, hrc, hcstart, -⟩ := hnested.range_of_reaches hn hr
  obtain ⟨rd, hrd, hdstart, hdstop⟩ := hnested.range_of_reaches hm hs
  obtain ⟨front, back, hchildren⟩ := List.append_of_mem hc
  have hd' : d ∈ front ∨ d ∈ back := by
    rw [hchildren, List.mem_append, List.mem_cons] at hd
    exact hd.imp_right fun hd => hd.resolve_left (Ne.symm hcd)
  rcases hd' with hfront | hback
  · -- The other part would stop before this one starts.
    have hp := Arena.get?_eq_some_iff.2 ⟨Arena.lt_size_of_mem_children hc, rfl⟩
    obtain ⟨rp, hrp⟩ := Option.isSome_iff_exists.1
      (show (a.range? p).isSome by simp [Arena.range?, hp])
    have hpairs := (hnested p rp hrp).2.pairwise
    rw [hchildren] at hpairs
    have hstop := (List.pairwise_append.1 hpairs).2.2 d hfront c List.mem_cons_self rd rc hrd hrc
    have hle := s.start_le_stop
    omega
  · obtain ⟨mid, rest, rfl⟩ := List.append_of_mem hback
    exact ⟨front, mid, rest, hchildren⟩

namespace Binder

variable {a : Arena} {root n p q t : NodeId} {context : WalkContext} {fuel : Nat} {b : Bindings}

/-- Where a statement before an assignment says that the name stands for that of a function around,
this is noted when the name is declared. -/
theorem exists_passes_after (h : a.Rooted root) {hi : Nat} (hnested : Nested a hi)
    {names : List NodeId} {token : Token} {x : String} (hform : a.form? n = some (.nonlocal names))
    (hx : x ∈ names.filterMap a.nameOf?) (hassigns : a.Assigns q t)
    (hname : a.form? t = some (.name token x)) (hbefore : a.StartsBefore n q)
    (hn : a.Shares p n) (hq : a.Shares p q) (hp : p < fuel) (hscope : b.IsFunction context.scope) :
    ∃ d b₁, d.node = t ∧ d.kind = .variable ∧ b₁.HasNonlocal context.scope x ∧
      b.Passes ((walk a fuel context p).run b).2 (declare context.scope x d) b₁ := by
  -- Down to the construct that has the statement and the assignment in two of its parts.
  induction hn using Relation.ReflTransGen.head_induction_on generalizing fuel b with
  | refl =>
    rcases Relation.ReflTransGen.cases_head hq with rfl | ⟨m, ⟨form, hform', hshares, -⟩, -⟩
    · exact absurd .refl (hbefore.not_reaches hnested)
    · obtain rfl := Option.some.inj (hform'.symm.trans hform)
      cases hshares
  | @head p c hpc hcn ih =>
    rcases Relation.ReflTransGen.cases_head hq with rfl | ⟨d, hpd, hdq⟩
    · exact absurd (Arena.Shares.reaches (.head hpc hcn)) (hbefore.not_reaches hnested)
    obtain ⟨fuel, rfl⟩ := Nat.exists_eq_add_one_of_ne_zero (Nat.ne_zero_of_lt hp)
    obtain ⟨form, hform', hshares, hc⟩ := id hpc
    have hlt : ∀ m ∈ form.children, m < fuel := fun m hm => h.lt_part hform' hm hp
    by_cases hcd : c = d
    · subst hcd
      obtain ⟨b₁, hpasses⟩ := exists_passes_part h hp hscope.lt_size hpc
      obtain ⟨e, b₂, hnode, hkind, hnonlocal, hpasses'⟩ :=
        ih hdq (hlt c hc) (hscope.grows hpasses.before)
      exact ⟨e, b₂, hnode, hkind, hnonlocal, hpasses.trans hpasses'⟩
    · have hd : d ∈ form.children := by
        obtain ⟨form', hform'', -, hd⟩ := hpd
        obtain rfl := Option.some.inj (hform''.symm.trans hform')
        exact hd
      obtain ⟨front, mid, back, hchildren⟩ := hbefore.exists_append hnested
        (Arena.mem_children_of_form? hform' hc) (Arena.mem_children_of_form? hform' hd) hcd
        (Arena.Shares.reaches hcn) (Arena.Shares.reaches hdq)
      rw [Arena.children_of_form? hform'] at hchildren
      -- The part with the statement is walked, and then the one with the assignment.
      obtain ⟨b₁, b₂, hbefore₁, hpasses⟩ :=
        exists_passes_parts h hp hscope.lt_size hform' hshares hchildren
      have hscope₁ := hscope.grows hbefore₁
      have hwalk := grows_walk h (hlt c hc) hscope₁.lt_size
      have hnoted := hasNonlocal_walk h hcn hform hx (hlt c hc) hscope₁.lt_size
      obtain ⟨e, b₃, hnode, hkind, hdeclare⟩ := exists_passes_assignment h hdq hassigns hname
        (hlt d hd) ((hscope₁.grows hwalk).grows hpasses.before)
      have hboth := hpasses.trans hdeclare
      exact ⟨e, b₃, hnode, hkind, hnoted.grows hboth.before,
        ⟨hbefore₁.trans (hwalk.trans hboth.before), hboth.after⟩⟩

end Binder

end TypeProbe
