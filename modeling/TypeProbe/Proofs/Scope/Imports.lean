import TypeProbe.Proofs.Scope.Unpacking

/-!
# What imports declare

An import declares the name that it binds: its new name, or its own name, of which that of a module
gives the first part. A name may be missing, and then nothing is declared.
`Bindings.isSome_declaration?_iff` says that an import declares something exactly if it binds a
name: a walk comes to every import and declares its name there, and its node declares nothing else
(`Binder.DeclaresOnly`).
-/

namespace TypeProbe

/-- Whether nodes of a kind are imports of one name. -/
def NodeKind.isImport (kind : NodeKind) : Bool := kind == .importAs || kind == .importFromAs

namespace Arena

/-- The name that an import binds. -/
def boundName? (a : Arena) (n : NodeId) : Option String :=
  match a.form? n with
  | some (.importAs source newName) => (Binder.importedName a source newName).bind a.nameOf?
  | some (.importFromAs title newName) => a.nameOf? (newName.getD title)
  | _ => none

/-- A node is an import that binds a name. -/
def BindsName (a : Arena) (n : NodeId) : Prop := ∃ x, a.boundName? n = some x ∧ x ≠ ""

/-- A node may declare something: if it is an import, it binds a name. -/
def MayDeclare (a : Arena) (n : NodeId) : Prop :=
  ∀ kind, a.kind? n = some kind → kind.isImport = true → a.BindsName n

variable {a : Arena} {n : NodeId}

/-- What is no import may declare something. -/
theorem mayDeclare_of_form? {form : Form} (hform : a.form? n = some form)
    (himport : form.kind.isImport = false) : a.MayDeclare n := by
  intro kind hkind htrue
  obtain rfl := Option.some.inj ((kind?_of_form? hform).symm.trans hkind)
  rw [himport] at htrue
  cases htrue

/-- A name may declare something. -/
theorem mayDeclare_of_nameOf? {x : String} (h : a.nameOf? n = some x) : a.MayDeclare n := by
  unfold nameOf? at h
  split at h
  · exact mayDeclare_of_form? ‹_› rfl
  · cases h

end Arena

namespace Binder

/-- A binder declares only what nodes may declare. -/
def DeclaresOnly {α : Type} (a : Arena) (p : Binder α) : Prop :=
  ∀ b : Bindings, (∀ e ∈ b.declarations, a.MayDeclare e.1) →
    ∀ e ∈ (p.run b).2.declarations, a.MayDeclare e.1

namespace DeclaresOnly

variable {α β : Type} {a : Arena} {p q : Binder α} {n : NodeId} {form : Form}
  {context : WalkContext} {fuel : Nat} {i : ScopeId}

/-- A binder that leaves the declarations declares nothing. -/
theorem leave (hp : ∀ b, (p.run b).2.declarations = b.declarations) : DeclaresOnly a p :=
  fun b hb => hp b ▸ hb

/-- A result may be returned. -/
theorem ret {r : α} : DeclaresOnly a (pure r : Binder α) := leave fun _ => rfl

/-- A binder may be followed by another one. -/
theorem bind {f : α → Binder β} (hp : DeclaresOnly a p) (hf : ∀ r, DeclaresOnly a (f r)) :
    DeclaresOnly a (p >>= f) := fun b hb => hf _ _ (hp b hb)

/-- A binder may choose between two. -/
theorem ite {c : Prop} [Decidable c] (hp : DeclaresOnly a p) (hq : DeclaresOnly a q) :
    DeclaresOnly a (if c then p else q) := by
  split
  · exact hp
  · exact hq

/-- A step may be made for each element of a list. -/
theorem forIn {ys : List β} {f : β → PUnit → Binder (ForInStep PUnit)}
    (h : ∀ y ∈ ys, ∃ p : Binder Unit, f y ⟨⟩ = (do p; return .yield ⟨⟩) ∧ DeclaresOnly a p) :
    DeclaresOnly a (ForIn.forIn ys ⟨⟩ f) := by
  induction ys with
  | nil => exact ret
  | cons y ys ih =>
    obtain ⟨p, hf, hp⟩ := h y List.mem_cons_self
    rw [List.forIn_cons, hf, bind_assoc]
    exact hp.bind fun _ => ih fun z hz => h z (List.mem_cons_of_mem _ hz)

/-- A name may be declared by a node that may declare something. -/
theorem declare {x : String} {d : Declaration} (hd : x ≠ "" → a.MayDeclare d.node) :
    DeclaresOnly a (Binder.declare i x d) := by
  intro b hb
  by_cases hx : x = ""
  · subst hx
    exact hb
  · rw [Notes.run_declare _ _ hx]
    exact List.forall_mem_cons.2 ⟨hd hx, hb⟩

/-- The name of a node may be declared by a node that may declare something. -/
theorem declareNode {d : Declaration}
    (hd : ∀ x, a.nameOf? n = some x → x ≠ "" → a.MayDeclare d.node) :
    DeclaresOnly a (Binder.declareNode a i n d) := by
  unfold Binder.declareNode
  split
  · exact declare (hd _ ‹_›)
  · exact ret

/-- A member may be noted by a node that may declare something. -/
theorem bindMember {target left member : NodeId} {source hint : Option NodeId}
    (htarget : a.MayDeclare target) :
    DeclaresOnly a (Binder.bindMember a context target left member source hint) := by
  unfold Binder.bindMember
  split
  · exact ite (fun b hb => List.forall_mem_cons.2 ⟨htarget, hb⟩) ret
  · exact ret

/-- A target may declare what it binds. -/
theorem bindTarget (fuel : Nat) (target : NodeId) (source hint : Option NodeId) (path : List Nat) :
    DeclaresOnly a (Binder.bindTarget a context fuel target source hint path) := by
  induction fuel generalizing target source hint path with
  | zero => exact ret
  | succ fuel ih =>
    unfold Binder.bindTarget
    split
    · exact declare fun _ => Arena.mayDeclare_of_form? ‹_› rfl
    · exact ih _ _ _ _
    · exact forIn fun entry _ => ⟨_, rfl, ih entry.1 _ _ _⟩
    · exact forIn fun entry _ => ⟨_, rfl, ih entry.1 _ _ _⟩
    · exact ih _ _ _ _
    · exact bindMember (Arena.mayDeclare_of_form? ‹_› rfl)
    · exact ret

/-- A node may note what it declares: an import declares the name that it binds. -/
theorem visitPlain (hform : a.form? n = some form) :
    DeclaresOnly a (Binder.visitPlain a context n form) := by
  have himport : ∀ {x : String}, a.boundName? n = some x → x ≠ "" → a.MayDeclare n :=
    fun hbound hx _ _ _ => ⟨_, hbound, hx⟩
  unfold Binder.visitPlain
  split
  · exact (bindTarget _ _ _ _ _).bind fun _ => ret
  · exact ite ((bindTarget _ _ _ _ _).bind fun _ => ret) ret
  · exact (bindTarget _ _ _ _ _).bind fun _ => ret
  · exact (leave fun _ => rfl).bind fun _ => (bindTarget _ _ _ _ _).bind fun _ => ret
  · exact (bindTarget _ _ _ _ _).bind fun _ => ret
  · exact (bindTarget _ _ _ _ _).bind fun _ => ret
  · rename_i title _
    exact bind (declareNode (d := ⟨.variable, title, some n, none, []⟩) fun x hx _ =>
      Arena.mayDeclare_of_nameOf? hx) fun _ => ret
  · rename_i source newName
    refine (forIn fun name hname => ⟨_, rfl, declareNode fun x hx hne => himport ?_ hne⟩).bind
      fun _ => ret
    rw [Arena.boundName?, hform]
    exact Option.bind_eq_some_iff.2 ⟨name, Option.mem_toList.1 hname, hx⟩
  · refine (declareNode fun x hx hne => himport ?_ hne).bind fun _ => ret
    rw [Arena.boundName?, hform]
    exact hx
  · exact (leave fun _ => rfl).bind fun _ => ret
  · exact (leave fun _ => rfl).bind fun _ => ret
  · exact (forIn fun _ _ => ⟨_, rfl, leave fun _ => rfl⟩).bind fun _ => ret
  · exact (forIn fun _ _ => ⟨_, rfl, leave fun _ => rfl⟩).bind fun _ => ret
  · exact (forIn fun _ _ => ⟨_, rfl, leave fun _ => rfl⟩).bind fun _ => ret
  · exact ret

/-- Parameters may declare their names. -/
theorem declareParameters (parameters : List NodeId) (scope : ScopeId) :
    DeclaresOnly a (Binder.declareParameters a scope parameters) := by
  refine forIn fun p _ => ?_
  cases hform : a.form? p with
  | none => exact ⟨pure (), rfl, ret⟩
  | some form =>
    cases form with
    | parameter category title hint defaultValue =>
      cases title with
      | none => exact ⟨pure (), rfl, ret⟩
      | some title => exact ⟨_, rfl, declareNode fun _ _ _ => Arena.mayDeclare_of_form? hform rfl⟩
    | _ => exact ⟨pure (), rfl, ret⟩

section Walks

variable (hwalk : ∀ (context : WalkContext) (n : NodeId),
  DeclaresOnly a (Binder.walk a fuel context n))
include hwalk

/-- Several nodes may be walked. -/
theorem walkEach (ids : List NodeId) (context : WalkContext) :
    DeclaresOnly a (do for m in ids do Binder.walk a fuel context m) :=
  forIn fun m _ => ⟨_, rfl, hwalk context m⟩

/-- What stands in parameters may be walked. -/
theorem walkParameters (parameters : List NodeId) :
    DeclaresOnly a (Binder.walkParameters a (Binder.walk a fuel) context parameters) := by
  refine forIn fun p _ => ?_
  cases hform : a.form? p with
  | none => exact ⟨pure (), rfl, ret⟩
  | some form =>
    cases form with
    | parameter category title hint defaultValue => exact ⟨_, rfl, walkEach hwalk _ context⟩
    | _ => exact ⟨pure (), rfl, ret⟩

/-- A clause of a comprehension may be walked. -/
theorem walkClause (clause : NodeId) (isFirst : Bool) :
    DeclaresOnly a (Binder.walkClause a (Binder.walk a fuel) context clause isFirst) := by
  unfold Binder.walkClause
  split
  · rename_i isAsync target iterable hform
    refine (bindTarget _ target _ _ _).bind fun _ => (hwalk context target).bind fun _ => ?_
    exact ite (hwalk context iterable) ret
  · exact hwalk context clause
  · exact ret

/-- A comprehension may be walked. -/
theorem walkComprehension (expression : NodeId) (clauses : List NodeId) :
    DeclaresOnly a
      (Binder.walkComprehension a (Binder.walk a fuel) context n expression clauses) := by
  unfold Binder.walkComprehension
  extract_lets rest
  have hrest : ∀ u, DeclaresOnly a (rest u) := fun _ =>
    (leave fun _ => rfl).bind fun _ =>
      (forIn fun e _ => ⟨_, rfl, walkClause hwalk e.1 _⟩).bind fun _ => hwalk _ expression
  split
  · exact (hwalk context _).bind fun _ => hrest ()
  · exact hrest ()

/-- A node may be walked with all that is below it. -/
theorem walkNode (context : WalkContext) (n : NodeId) :
    DeclaresOnly a (Binder.walkNode a (Binder.walk a fuel) context n) := by
  unfold Binder.walkNode
  cases hform : a.form? n with
  | none => exact ret
  | some form =>
    have hself : form.kind.isImport = false → a.MayDeclare n := Arena.mayDeclare_of_form? hform
    cases form with
    | classDef decorators title arguments body =>
      exact (walkEach hwalk _ context).bind fun _ => (declareNode fun _ _ _ => hself rfl).bind
        fun _ => (leave fun _ => rfl).bind fun _ => hwalk _ body
    | function decorators isAsync title parameters returnHint body =>
      refine (walkEach hwalk _ context).bind fun _ => (walkParameters hwalk parameters).bind
        fun _ => (walkEach hwalk _ context).bind fun _ =>
          (declareNode fun _ _ _ => hself rfl).bind fun _ => ?_
      exact (leave fun _ => rfl).bind fun _ => (leave fun _ => rfl).bind fun scope =>
        (declareParameters parameters scope).bind fun _ => hwalk _ body
    | lambda parameters expression =>
      exact (walkParameters hwalk parameters).bind fun _ => (leave fun _ => rfl).bind fun scope =>
        (declareParameters parameters scope).bind fun _ => hwalk _ expression
    | comprehension expression clauses => exact walkComprehension hwalk expression clauses
    | _ => exact (visitPlain hform).bind fun _ => ite (walkEach hwalk _ context) ret

end Walks

/-- A walk declares only what nodes may declare. -/
theorem walk (fuel : Nat) (context : WalkContext) (n : NodeId) :
    DeclaresOnly a (Binder.walk a fuel context n) := by
  induction fuel generalizing context n with
  | zero => exact ret
  | succ fuel ih => exact walkNode ih context n

end DeclaresOnly

/-- The name of a node is declared if it is there. -/
theorem run_declareNode {a : Arena} {title : NodeId} {x : String} (hname : a.nameOf? title = some x)
    (hx : x ≠ "") (b : Bindings) (scope : ScopeId) (d : Declaration) :
    ((declareNode a scope title d).run b).2 = b.declaredAt (b.target scope x) x d := by
  unfold declareNode
  rw [hname]
  dsimp only
  rw [Notes.run_declare b scope hx]

/-- The walk of an import declares the name that it binds. -/
theorem run_walk_import {a : Arena} {n : NodeId} {x : String} (hbound : a.boundName? n = some x)
    (hx : x ≠ "") (fuel : Nat) (w : WalkContext) (b : Bindings) :
    ((walk a (fuel + 1) w n).run b).2 =
      b.declaredAt (b.target w.scope x) x (Declaration.plain .imported n) := by
  show ((walkNode a (walk a fuel) w n).run b).2 = _
  unfold Arena.boundName? at hbound
  unfold walkNode
  split at hbound
  · rename_i source newName hform
    obtain ⟨title, htitle, hname⟩ := Option.bind_eq_some_iff.1 hbound
    rw [hform]
    dsimp only [visitPlain]
    rw [htitle]
    exact run_declareNode hname hx b w.scope _
  · rename_i title newName hform
    rw [hform]
    exact run_declareNode hbound hx b w.scope _
  · cases hbound

end Binder

namespace Bindings

variable {a : Arena} {root n : NodeId}

/-- Only nodes that may declare something do. -/
theorem mayDeclare_of_declaration? {d : Declaration} (h : (ofTree a root).declaration? n = some d) :
    a.MayDeclare n := by
  have hbinder : Binder.DeclaresOnly a (do
      let scope ← Binder.openScope .module root none
      for child in a.children root do
        Binder.walk a (a.size + 1) ⟨scope, none⟩ child) :=
    (Binder.DeclaresOnly.leave fun _ => rfl).bind fun _ =>
      .forIn fun child _ => ⟨_, rfl, .walk _ _ child⟩
  have hempty : ∀ e ∈ Bindings.empty.declarations, a.MayDeclare e.1 := fun e he => by cases he
  exact hbinder Bindings.empty hempty (n, d) (TypeStore.mem_of_lookup h)

/-- An import that binds a name declares it. -/
theorem declaration?_of_bindsName (h : a.Rooted root) (hreach : a.Reaches root n) {kind : NodeKind}
    (hkind : a.kind? n = some kind) (himport : kind.isImport = true) (hbinds : a.BindsName n) :
    (ofTree a root).declaration? n = some (Declaration.plain .imported n) := by
  obtain ⟨x, hbound, hx⟩ := hbinds
  have hwalked : kind.isWalked = true := by
    cases kind <;> first | rfl | cases himport
  refine declaration?_of_walk (d := .plain .imported n) h hreach hkind hwalked
    fun fuel w b hfuel _ => ?_
  obtain ⟨fuel, rfl⟩ := Nat.exists_eq_add_one_of_ne_zero (Nat.ne_zero_of_lt hfuel)
  rw [Binder.run_walk_import hbound hx]
  exact List.mem_cons_self

/-- An import declares something exactly if it binds a name. -/
theorem isSome_declaration?_iff (h : a.Rooted root) (hreach : a.Reaches root n) {kind : NodeKind}
    (hkind : a.kind? n = some kind) (himport : kind.isImport = true) :
    ((ofTree a root).declaration? n).isSome ↔ a.BindsName n := by
  constructor
  · intro hsome
    obtain ⟨d, hd⟩ := Option.isSome_iff_exists.1 hsome
    exact mayDeclare_of_declaration? hd kind hkind himport
  · intro hbinds
    rw [declaration?_of_bindsName h hreach hkind himport hbinds]
    rfl

end Bindings

end TypeProbe
