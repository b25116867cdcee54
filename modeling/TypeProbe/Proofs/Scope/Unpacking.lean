import TypeProbe.Proofs.Scope.Known
import TypeProbe.Proofs.Scope.Passage

/-!
# What unpacked targets declare

What is no part of an expression a walk comes to wherever it is in a tree: through what shares the
scope, and through the bodies of classes and functions (`Binder.Comes.walkBelow`). What it declares
there is declared in the tree (`Bindings.declaration?_of_walk`). An assignment declares the names of
its target, each with its way through nested tuples and lists and with the assigned value as its
source (`Bindings.declaration?_of_targetAt`).
-/

namespace TypeProbe

namespace Arena

/-- A target has a name at the end of a way through nested tuples and lists, each step by its place.
No starred target stands on the way. -/
inductive TargetAt (a : Arena) : (target : NodeId) → (path : List Nat) → (n : NodeId) → Prop
  /-- A name is a target itself. -/
  | name {n : NodeId} {token : Token} {value : String}
    (hform : a.form? n = some (.name token value)) (hvalue : value ≠ "") : TargetAt a n [] n
  /-- What is at the end of a way through an entry of a tuple is there. -/
  | tuple {target entry n : NodeId} {entries : List NodeId} {enclosed : Bool} {i : Nat}
    {path : List Nat} (hform : a.form? target = some (.tuple entries enclosed))
    (hentry : entries[i]? = some entry) (h : TargetAt a entry path n) :
    TargetAt a target (i :: path) n
  /-- What is at the end of a way through an entry of a list is there. -/
  | list {target entry n : NodeId} {entries : List NodeId} {i : Nat}
    {path : List Nat} (hform : a.form? target = some (.list entries))
    (hentry : entries[i]? = some entry) (h : TargetAt a entry path n) :
    TargetAt a target (i :: path) n

end Arena

/-- Whether a walk comes to all nodes of a kind that are below the root: they are no parts of
expressions, and they are not taken part by part. -/
def NodeKind.isWalked (kind : NodeKind) : Bool :=
  !kind.isInline && !kind.isPassedOver && kind != .module

/-- What is declared stays declared. -/
theorem Bindings.Grows.declared {b b' : Bindings} (h : b.Grows b') :
    b.declarations ⊆ b'.declarations := by
  obtain ⟨newer, hnewer, -⟩ := h.declarations
  exact hnewer ▸ List.subset_append_right _ _

/-! ## The walk of what is below -/

namespace Binder

/-- Where the scope is there, a binder takes nothing back. -/
def Keeps {α : Type} (i : ScopeId) (p : Binder α) : Prop :=
  ∀ b : Bindings, i < b.scopes.size → b.Grows (p.run b).2

/-- Where the scope is there, a binder comes to the walk of a node, for which there is a scope, and
takes nothing back. -/
def Comes {α : Type} (a : Arena) (n : NodeId) (i : ScopeId) (p : Binder α) : Prop :=
  ∀ b : Bindings, i < b.scopes.size → ∃ fuel w b₁, n < fuel ∧
    w.scope < b₁.scopes.size ∧ b.Passes (p.run b).2 (walk a fuel w n) b₁

variable {α β : Type} {a : Arena} {root n m c x : NodeId} {form : Form} {w : WalkContext}
  {fuel : Nat} {i : ScopeId} {p : Binder α} {f : α → Binder β}

namespace Keeps

/-- What notes some declarations takes nothing back. -/
theorem of_notes {t : NodeId} {k : Nat} (h : Notes a t i k p) : Keeps i p :=
  fun b hi => (h b hi).grows

/-- One binder after another. -/
theorem bind (hp : Keeps i p) (hf : ∀ r, Keeps i (f r)) : Keeps i (p >>= f) := fun b hi =>
  (hp b hi).trans (hf _ _ ((hp b hi).lt_size hi))

/-- A step for each element of a list. -/
theorem forIn {ys : List β} {step : β → Binder Unit} (h : ∀ y ∈ ys, Keeps i (step y)) :
    Keeps i (do for y in ys do step y) := by
  intro b hi
  have hgrows := grows_runEach h hi
  rw [← run_forIn] at hgrows
  exact hgrows

/-- A scope may be opened for what comes next. -/
theorem opened {kind : ScopeKind} {node : NodeId} {f : ScopeId → Binder β}
    (hf : ∀ j, Keeps j (f j)) : Keeps i (openScope kind node (some i) >>= f) := fun b hi =>
  (b.grows_push (s := ⟨kind, node, some i, [], [], []⟩) rfl fun _ ho =>
    Option.some.inj ho ▸ hi).trans (hf b.scopes.size _ (by simp))

/-- A walk takes nothing back. -/
theorem walk (h : a.Rooted root) (hn : n < fuel) :
    Keeps w.scope (Binder.walk a fuel w n) := fun _ hi => grows_walk h hn hi

end Keeps

namespace Comes

/-- The walk of a node comes to itself. -/
theorem walk (hn : n < fuel) : Comes a n w.scope (Binder.walk a fuel w n) :=
  fun b hi => ⟨fuel, w, b, hn, hi, .refl b, .refl _⟩

/-- What the walk of a node always comes to is come to where that is. -/
theorem trans (hp : Comes a m i p) (hm : ∀ {fuel : Nat} {w : WalkContext}, m < fuel →
    Comes a n w.scope (Binder.walk a fuel w m)) : Comes a n i p := by
  intro b hi
  obtain ⟨fuel, w, b₁, hlt, hscope, hpasses⟩ := hp b hi
  obtain ⟨fuel', w', b₂, hlt', hscope', hpasses'⟩ := hm hlt b₁ hscope
  exact ⟨fuel', w', b₂, hlt', hscope', hpasses.trans hpasses'⟩

/-- What the first of two binders comes to they come to together. -/
theorem first (hp : Comes a n i p) (hkeeps : Keeps i p) (hf : ∀ r, Keeps i (f r)) :
    Comes a n i (p >>= f) := by
  intro b hi
  obtain ⟨fuel, w, b₁, hlt, hscope, hpasses⟩ := hp b hi
  exact ⟨fuel, w, b₁, hlt, hscope, hpasses.before,
    hpasses.after.trans (hf _ _ ((hkeeps b hi).lt_size hi))⟩

/-- What the second of two binders comes to they come to together. -/
theorem second (hp : Keeps i p) (hf : ∀ r, Comes a n i (f r)) : Comes a n i (p >>= f) := by
  intro b hi
  obtain ⟨fuel, w, b₁, hlt, hscope, hpasses⟩ := hf _ _ ((hp b hi).lt_size hi)
  exact ⟨fuel, w, b₁, hlt, hscope, (hp b hi).trans hpasses.before, hpasses.after⟩

/-- What is come to where a scope has been opened is come to by opening it. -/
theorem opened {kind : ScopeKind} {node : NodeId} {f : ScopeId → Binder β}
    (hf : ∀ j, Comes a n j (f j)) : Comes a n i (openScope kind node (some i) >>= f) := by
  intro b hi
  obtain ⟨fuel, w, b₁, hlt, hscope, hpasses⟩ := hf b.scopes.size
    { b with scopes := b.scopes.push ⟨kind, node, some i, [], [], []⟩ } (by simp)
  have hgrows := b.grows_push (s := ⟨kind, node, some i, [], [], []⟩) rfl
    fun _ ho => Option.some.inj ho ▸ hi
  exact ⟨fuel, w, b₁, hlt, hscope, hgrows.trans hpasses.before, hpasses.after⟩

/-- Walks of several nodes come to each of them. -/
theorem walkEach (h : a.Rooted root) {ids : List NodeId} (hids : ∀ m ∈ ids, m < fuel)
    (hn : n ∈ ids) :
    Comes a n w.scope (do for m in ids do Binder.walk a fuel w m) := by
  intro b hi
  obtain ⟨front, back, rfl⟩ := List.append_of_mem hn
  have hgrows : ∀ m ∈ front ++ n :: back, ∀ b : Bindings, w.scope < b.scopes.size →
      b.Grows ((Binder.walk a fuel w m).run b).2 := fun m hm b hb => grows_walk h (hids m hm) hb
  have hpasses := passes_runEach hgrows hi rfl
  have hsize := hpasses.before.lt_size hi
  rw [← run_forIn] at hpasses
  exact ⟨fuel, w, _, hids n hn, hsize, hpasses⟩

/-- The walk of a class comes to its decorators, arguments and body. -/
theorem walkClass (h : a.Rooted root) {decorators arguments : List NodeId} {title body : NodeId}
    (hlt : ∀ m ∈ decorators ++ arguments, m < fuel) (hbody : body < fuel)
    (hc : c ∈ decorators ++ arguments ∨ c = body) : Comes a c w.scope
      (Binder.walkClass a (Binder.walk a fuel) w n decorators title arguments body) := by
  have heach : Keeps w.scope (do
      for m in decorators ++ arguments do Binder.walk a fuel w m) :=
    .forIn fun m hm => .walk h (hlt m hm)
  have hdeclare : Keeps w.scope
      (declareNode a w.scope title (Declaration.plain .class n)) :=
    .of_notes (t := n) (Notes.declareNode (k := 1) fun _ => Nat.le_refl 1)
  rcases hc with hc | rfl
  · refine (walkEach h hlt hc).first heach fun _ => hdeclare.bind fun _ => .opened fun j => ?_
    exact .walk (w := { w with scope := j }) h hbody
  · refine .second heach fun _ => .second hdeclare fun _ => .opened fun j => ?_
    exact walk (w := { w with scope := j }) hbody

/-- The walk of a function comes to its decorators, type hint and body. -/
theorem walkFunction (h : a.Rooted root) {decorators parameters : List NodeId}
    {title body : NodeId} {returnHint : Option NodeId} (hdecorators : ∀ m ∈ decorators, m < fuel)
    (hparameters : ∀ m ∈ parameters, m < fuel) (hhint : ∀ m ∈ returnHint.toList, m < fuel)
    (hbody : body < fuel) (hc : c ∈ decorators ∨ c ∈ returnHint.toList ∨ c = body) :
    Comes a c w.scope (Binder.walkFunction a (Binder.walk a fuel) w n decorators title
      parameters returnHint body) := by
  have hwalk : ∀ m < fuel, ∀ w : WalkContext,
      Notes a n w.scope (a.declares n m) (Binder.walk a fuel w m) :=
    fun m hm w => Notes.walk h fuel hm w
  have hfirst : Keeps w.scope (do for m in decorators do Binder.walk a fuel w m) :=
    .forIn fun m hm => .walk h (hdecorators m hm)
  have hsecond : Keeps w.scope
      (Binder.walkParameters a (Binder.walk a fuel) w parameters) :=
    .of_notes (Notes.walkParameters h hwalk hparameters)
  have hthird : Keeps w.scope (do
      for m in returnHint.toList do Binder.walk a fuel w m) :=
    .forIn fun m hm => .walk h (hhint m hm)
  have hdeclare : Keeps w.scope
      (declareNode a w.scope title (Declaration.plain .function n)) :=
    .of_notes (t := n) (Notes.declareNode (k := 1) fun _ => Nat.le_refl 1)
  have hread : Keeps w.scope (scopeAt w.scope) := fun b _ => .refl b
  have hopened : ∀ j, Keeps j (declareParameters a j parameters) := fun j =>
    .of_notes (t := n) (Notes.declareParameters parameters j)
  have hrest : Keeps w.scope (do
      declareNode a w.scope title (Declaration.plain .function n)
      let receiver := receiverOf a (← scopeAt w.scope) parameters
      let scope ← openScope .function n (some w.scope)
      declareParameters a scope parameters
      Binder.walk a fuel ⟨scope, some ⟨n, receiver⟩⟩ body) :=
    hdeclare.bind fun _ => hread.bind fun around => .opened fun j => (hopened j).bind fun _ =>
      .walk (w := ⟨j, _⟩) h hbody
  rcases hc with hc | hc | rfl
  · exact (walkEach h hdecorators hc).first hfirst fun _ => hsecond.bind fun _ =>
      hthird.bind fun _ => hrest
  · exact .second hfirst fun _ => .second hsecond fun _ =>
      (walkEach h hhint hc).first hthird fun _ => hrest
  · exact .second hfirst fun _ => .second hsecond fun _ => .second hthird fun _ =>
      .second hdeclare fun _ => .second hread fun around => .opened fun j =>
        .second (hopened j) fun _ => walk (w := ⟨j, _⟩) hbody

/-- The walk of a node comes to every child that is at or above a node to which walks come. -/
theorem walkChild (h : a.Rooted root) (hn : n < fuel + 1) (hroot : n ≠ root)
    (hform : a.form? n = some form) (hc : c ∈ form.children) {kind : NodeKind}
    (hx : a.kind? x = some kind) (hwalked : kind.isWalked = true) (hreach : a.Reaches c x) :
    Comes a c w.scope (Binder.walk a (fuel + 1) w n) := by
  simp only [NodeKind.isWalked, Bool.and_eq_true, Bool.not_eq_true'] at hwalked
  obtain ⟨⟨hoff, hover⟩, -⟩ := hwalked
  have hplain : ¬a.Has (c, .inline) := by
    intro hinline
    obtain ⟨kind', hkind, hinline⟩ := h.inline_of_reaches hinline hreach
    obtain rfl := Option.some.inj (hx.symm.trans hkind)
    rw [hoff] at hinline
    cases hinline
  have hlt : ∀ m ∈ form.children, m < fuel := fun m hm => h.lt_part hform hm hn
  have hpart := h.parts n form hform
  by_cases hshares : form.sharesScope = true
  · intro b hi
    obtain ⟨b₁, hpasses⟩ := exists_passes_part h hn hi ⟨form, hform, hshares, hc⟩
    exact ⟨fuel, w, b₁, hlt c hc, hpasses.before.lt_size hi, hpasses⟩
  by_cases hnames : form.namesOnly = true
  · have hsum := times_namesOnly h (x := x) (fun kind' hkind => by
      obtain rfl := Option.some.inj (hx.symm.trans hkind)
      exact hover) hform hnames
    have hzero := List.sum_eq_zero_iff.1 hsum _ (List.mem_map_of_mem hc)
    rw [Arena.times_eq_one hreach] at hzero
    cases hzero
  show Comes a c w.scope (walkNode a (Binder.walk a fuel) w n)
  unfold walkNode
  rw [hform]
  cases form with
  | classDef decorators title arguments body =>
    have hname : c ≠ title := by
      rintro rfl
      exact hplain ⟨.name, hpart _ List.mem_cons_self, rfl⟩
    refine walkClass h (fun m hm => hlt m ?_) (hlt body ?_) ?_
    all_goals simp only [Form.children, List.mem_append, List.mem_cons] at *
    all_goals tauto
  | function decorators isAsync title parameters returnHint body =>
    have hname : c ≠ title := by
      rintro rfl
      exact hplain ⟨.name, hpart _ List.mem_cons_self, rfl⟩
    have hparameter : c ∉ parameters := fun hc => hplain
      ⟨.parameter, hpart (c, _) (List.mem_cons_of_mem _ (mem_allOf.2 ⟨hc, rfl⟩)), rfl⟩
    refine walkFunction h (fun m hm => hlt m ?_) (fun m hm => hlt m ?_) (fun m hm => hlt m ?_)
      (hlt body ?_) ?_
    all_goals simp only [Form.children, List.mem_append, List.mem_cons] at *
    all_goals tauto
  | lambda parameters expression => exact absurd (h.inline_of_mem_children hform rfl hc) hplain
  | comprehension expression clauses =>
    exact absurd (h.inline_of_mem_children hform rfl hc) hplain
  | module statements => exact absurd ((h.kind_root n).1 (Arena.kind?_of_form? hform)) hroot
  | _ => first | exact absurd rfl hshares | exact absurd rfl hnames

/-- A walk comes to what is below the node, unless expressions are made of it. -/
theorem walkBelow (h : a.Rooted root) {kind : NodeKind} (hx : a.kind? x = some kind)
    (hwalked : kind.isWalked = true) (hreach : a.Reaches n x) (hroot : n < root) (hn : n < fuel) :
    Comes a x w.scope (Binder.walk a fuel w n) := by
  induction hreach using Relation.ReflTransGen.head_induction_on generalizing fuel w with
  | refl => exact walk hn
  | @head n c hc hreach ih =>
    obtain ⟨form, hform, hchild⟩ := Arena.exists_form_of_mem_children hc
    obtain ⟨fuel, rfl⟩ := Nat.exists_eq_add_one_of_ne_zero (Nat.ne_zero_of_lt hn)
    have hstep := walkChild (w := w) h hn (Nat.ne_of_lt hroot) hform hchild hx hwalked hreach
    exact hstep.trans fun hlt => ih (Nat.lt_trans (h.lt n c hc) hroot) hlt

end Comes

/-! ## The names of a target -/

variable {b : Bindings} {target : NodeId} {path way : List Nat} {source : Option NodeId}

/-- What an entry of a target declares is declared. -/
theorem declares_entries (h : a.Rooted root) {entry : NodeId} {entries : List NodeId} {k : Nat}
    {d : Declaration} (hentry : entries[k]? = some entry) (hscope : w.scope < b.scopes.size)
    (hd : ∀ b : Bindings, w.scope < b.scopes.size → (d.node, d) ∈
      ((bindTarget a w fuel entry source none (way ++ [k])).run b).2.declarations) :
    (d.node, d) ∈ (runEach (fun e : NodeId × Nat =>
      bindTarget a w fuel e.1 source none (way ++ [e.2])) entries.zipIdx b).declarations := by
  have hmem : (entry, k) ∈ entries.zipIdx := List.mem_zipIdx_iff_getElem?.2 hentry
  obtain ⟨front, back, hzip⟩ := List.append_of_mem hmem
  have hgrows : ∀ e ∈ entries.zipIdx, ∀ b : Bindings, w.scope < b.scopes.size →
      b.Grows ((bindTarget a w fuel e.1 source none (way ++ [e.2])).run b).2 :=
    fun e _ b hb => (Notes.bindTarget (t := entry) h fuel e.1 _ _ _ b hb).grows
  have hpasses := passes_runEach hgrows hscope hzip
  exact hpasses.after.declared (hd _ (hpasses.before.lt_size hscope))

/-- A name that a target has at the end of a way is declared with that way. -/
theorem declares_targetAt (h : a.Rooted root) (htarget : a.TargetAt target path n)
    (hfuel : target < fuel) (hscope : w.scope < b.scopes.size) (source : Option NodeId)
    (way : List Nat) : (n, ⟨.variable, n, source, none, way ++ path⟩) ∈
      ((bindTarget a w fuel target source none way).run b).2.declarations := by
  induction htarget generalizing fuel b way with
  | @name n token value hform hvalue =>
    obtain ⟨fuel, rfl⟩ := Nat.exists_eq_add_one_of_ne_zero (Nat.ne_zero_of_lt hfuel)
    unfold bindTarget
    rw [hform, List.append_nil]
    dsimp only
    rw [Notes.run_declare _ _ hvalue]
    exact List.mem_cons_self
  | @tuple target entry n entries enclosed i path hform hentry _ ih =>
    obtain ⟨fuel, rfl⟩ := Nat.exists_eq_add_one_of_ne_zero (Nat.ne_zero_of_lt hfuel)
    have hlt := h.lt_part hform (List.mem_of_getElem? hentry) hfuel
    unfold bindTarget
    rw [hform, List.append_cons]
    exact run_forIn (β := NodeId × Nat) _ _ b ▸
      declares_entries h (d := ⟨.variable, n, source, none, way ++ [i] ++ path⟩) hentry hscope
        fun b hb => ih hlt hb (way ++ [i])
  | @list target entry n entries i path hform hentry _ ih =>
    obtain ⟨fuel, rfl⟩ := Nat.exists_eq_add_one_of_ne_zero (Nat.ne_zero_of_lt hfuel)
    have hlt := h.lt_part hform (List.mem_of_getElem? hentry) hfuel
    unfold bindTarget
    rw [hform, List.append_cons]
    exact run_forIn (β := NodeId × Nat) _ _ b ▸
      declares_entries h (d := ⟨.variable, n, source, none, way ++ [i] ++ path⟩) hentry hscope
        fun b hb => ih hlt hb (way ++ [i])

/-- An assignment declares the names of its target. -/
theorem declares_assignment (h : a.Rooted root) {left right : NodeId}
    (hform : a.form? n = some (.assignment left right)) (htarget : a.TargetAt left path m)
    (hn : n < fuel) (hscope : w.scope < b.scopes.size) :
    (m, ⟨.variable, m, some (assignedValue a a.size right), none, path⟩) ∈
      ((walk a fuel w n).run b).2.declarations := by
  obtain ⟨fuel, rfl⟩ := Nat.exists_eq_add_one_of_ne_zero (Nat.ne_zero_of_lt hn)
  have hleft : left < a.size + 1 := by
    have hchild := Arena.mem_children_of_form? hform (List.mem_cons_self (a := left))
    exact Nat.lt_succ_of_lt (Nat.lt_trans (h.lt n left hchild) (Arena.lt_size_of_form? hform))
  have hdeclares := declares_targetAt h htarget hleft hscope
    (some (assignedValue a a.size right)) []
  have hvisit := (grows_visitPlain h hform hscope).lt_size hscope
  rw [run_walk_of_sharesScope hform rfl]
  exact (grows_runEach (fun m hm b hb => grows_walk h (h.lt_part hform hm hn) hb) hvisit).declared
    hdeclares

end Binder

namespace Bindings

variable {a : Arena} {root n m left right : NodeId} {path : List Nat}

/-- What every walk of a node declares is declared, if walks come to nodes of its kind. -/
theorem declaration?_of_walk (h : a.Rooted root) (hreach : a.Reaches root n) {kind : NodeKind}
    (hkind : a.kind? n = some kind) (hwalked : kind.isWalked = true) {d : Declaration}
    (hd : ∀ (fuel : Nat) (w : WalkContext) (b : Bindings), n < fuel → w.scope < b.scopes.size →
      (d.node, d) ∈ ((Binder.walk a fuel w n).run b).2.declarations) :
    (ofTree a root).declaration? d.node = some d := by
  refine lookup_of_mem (nodup_declarations_ofTree h) ?_
  obtain ⟨form, hroot, hmodule⟩ := Arena.form?_of_kind? ((h.kind_root root).2 rfl)
  have hsize := Arena.lt_size_of_form? hroot
  rcases Relation.ReflTransGen.cases_head hreach with rfl | ⟨c, hc, hreach⟩
  · obtain rfl := Option.some.inj (hkind.symm.trans ((h.kind_root root).2 rfl))
    cases hwalked
  have hlt : ∀ c ∈ a.children root, c < a.size + 1 := fun c hc =>
    Nat.lt_succ_of_lt (Nat.lt_trans (h.lt root c hc) hsize)
  -- The children of the root are walked in the scope of the module, which is opened first.
  obtain ⟨front, back, hchildren⟩ := List.append_of_mem hc
  have hgrows : ∀ m ∈ a.children root, ∀ b : Bindings, moduleScope < b.scopes.size →
      b.Grows ((Binder.walk a (a.size + 1) ⟨moduleScope, none⟩ m).run b).2 :=
    fun m hm b hb => Binder.grows_walk h (hlt m hm) hb
  have hpasses := Binder.passes_runEach hgrows
    (b := { empty with scopes := #[⟨.module, root, none, [], [], []⟩] }) Nat.zero_lt_one hchildren
  have hcomes : Binder.Comes a n moduleScope
      (Binder.walk a (a.size + 1) ⟨moduleScope, none⟩ c) :=
    .walkBelow (w := ⟨moduleScope, none⟩) h hkind hwalked hreach (h.lt root c hc) (hlt c hc)
  obtain ⟨fuel, w, b₁, hfuel, hscope, hpasses'⟩ :=
    hcomes _ (hpasses.before.lt_size Nat.zero_lt_one)
  have hmem := (hpasses.trans hpasses').after.declared (hd fuel w b₁ hfuel hscope)
  rw [← Binder.run_forIn] at hmem
  exact hmem

/-- A name that the target of an assignment has at the end of a way is declared with that way and
with the assigned value as its source. -/
theorem declaration?_of_targetAt (h : a.Rooted root) (hreach : a.Reaches root n)
    (hform : a.form? n = some (.assignment left right)) (htarget : a.TargetAt left path m) :
    (ofTree a root).declaration? m =
      some ⟨.variable, m, some (Binder.assignedValue a a.size right), none, path⟩ :=
  declaration?_of_walk (d := ⟨.variable, m, some (Binder.assignedValue a a.size right), none, path⟩)
    h hreach (Arena.kind?_of_form? hform) rfl fun _ _ _ hfuel hscope =>
      Binder.declares_assignment h hform htarget hfuel hscope

end Bindings

end TypeProbe
