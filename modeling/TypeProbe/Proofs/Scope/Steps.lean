import TypeProbe.Proofs.Scope.Enclosing
import TypeProbe.Scope.Builder

/-!
# What the steps of a binder note

`Bindings.Agrees` is the invariant of a binder: every scope was opened by a node of the tree that
opens one, its parent is the scope that the names of this node belong to, and the variables declared
in it stand where their names belong to it. `Binds a root x C k p N` says that `p` keeps the
invariant, knowing the scopes listed in `C` and making those listed in `N` known, and opens `k`
scopes of the node `x`. Its rules follow the shapes that binders are written in.
-/

namespace TypeProbe

namespace Named

variable {α : Type} (t : Named α) (key name : String)

/-- What a name has in a list that starts with a name. -/
theorem get?_cons (value : α) :
    get? ((key, value) :: t) name = if name = key then some value else t.get? name := by
  by_cases h : name = key
  · simp [get?, h]
  · simp [get?, List.lookup_cons, beq_false_of_ne h, h]

/-- A change changes what its name has, and nothing else. -/
theorem get?_alter (fallback : α) (change : α → α) :
    (t.alter key fallback change).get? name =
      if name = key then some (change ((t.get? key).getD fallback)) else t.get? name := by
  induction t with
  | nil => exact get?_cons [] key name (change fallback)
  | cons entry rest ih =>
    obtain ⟨first, value⟩ := entry
    unfold alter
    by_cases hfirst : first = key
    · subst hfirst
      simp only [if_true, get?_cons]
      split <;> rfl
    · rw [if_neg hfirst, get?_cons, ih, get?_cons, get?_cons, if_neg (Ne.symm hfirst)]
      by_cases hname : name = key
      · subst hname
        simp [Ne.symm hfirst]
      · simp [hname]

end Named

/-- What a node of a kind opens. -/
def ScopeKind.ofNode? : NodeKind → Option ScopeKind
  | .module => some .module
  | .class => some .class
  | .function => some .function
  | .lambda => some .lambda
  | .listComprehension => some .comprehension
  | _ => none

namespace Arena

/-- A node opens what nodes of its form open. -/
theorem opens_of_form? {a : Arena} {n : NodeId} {form : Form} {kind : ScopeKind}
    (hform : a.form? n = some form) (hkind : ScopeKind.ofNode? form.kind = some kind) :
    (a.kind? n).bind ScopeKind.ofNode? = some kind := by
  rw [kind?_of_form? hform]
  exact hkind

/-- A node is what a named expression gives its value to. -/
def IsWalrusTarget (a : Arena) (n : NodeId) : Prop :=
  ∃ p right, a.form? p = some (.assignmentExpression n right)

/-- A statement of the tree says that a name stands for that of another scope. -/
def Disclaims (a : Arena) (root : NodeId) (name : String) : Prop :=
  ∃ n names, a.Reaches root n ∧ (a.form? n = some (.global names) ∨
    a.form? n = some (.nonlocal names)) ∧ name ∈ names.filterMap a.nameOf?

end Arena

/-- A declaration is that of a variable by a name that no walrus follows and no statement says to
stand for that of another scope. -/
structure Declaration.IsLocal (d : Declaration) (a : Arena) (root : NodeId) (name : String) :
    Prop where
  /-- It declares a variable. -/
  kind : d.kind = .variable
  /-- It is made by a name. -/
  node : a.kind? d.node = some .name
  /-- The name is not followed by a walrus. -/
  walrus : ¬ a.IsWalrusTarget d.node
  /-- No statement is about the name. -/
  free : ¬ a.Disclaims root name

/-- A scope was opened by a node of the tree, and what is in it belongs there. -/
structure Scope.Fits (s : Scope) (a : Arena) (root : NodeId) : Prop where
  /-- The node that opened it is found in the tree. -/
  reaches : a.Reaches root s.node
  /-- The node is one that opens such scopes. -/
  kind : (a.kind? s.node).bind ScopeKind.ofNode? = some s.kind
  /-- Names that stand for those of other scopes are said to do so. -/
  disclaimed : ∀ x, x ∈ s.globals ∨ x ∈ s.nonlocals → a.Disclaims root x
  /-- The names of local variables belong to it. -/
  declared : ∀ x, ∀ d ∈ (s.symbols.get? x).getD [], d.IsLocal a root x → a.Encloses s.node d.node

/-- Scopes with the nodes that opened them. -/
abbrev Opened := List (ScopeId × NodeId)

namespace Bindings

/-- The nodes that opened the scopes, in their order. -/
def openers (b : Bindings) : List NodeId := b.scopes.toList.map (·.node)

/-- A scope was opened by a node. -/
def OpenedBy (b : Bindings) (i : ScopeId) (n : NodeId) : Prop :=
  ∃ s, b.scope? i = some s ∧ s.node = n

/-- A scope stands where its node does: first of all, or in the scope that the names of the node
belong to. -/
def Places (b : Bindings) (a : Arena) (root : NodeId) (i : ScopeId) (s : Scope) : Prop :=
  (i = moduleScope ∧ s.node = root ∧ s.parent = none) ∨
    ∃ outer n, s.parent = some outer ∧ b.OpenedBy outer n ∧ a.Encloses n s.node

/-- Bindings agree with a tree, and the listed scopes were opened by the nodes listed for them. -/
structure Agrees (b : Bindings) (a : Arena) (root : NodeId) (C : Opened) : Prop where
  /-- The scopes are those of nodes of the tree. -/
  fits : ∀ i s, b.scope? i = some s → s.Fits a root
  /-- The scopes stand where their nodes do. -/
  placed : ∀ i s, b.scope? i = some s → b.Places a root i s
  /-- The listed scopes are there. -/
  known : ∀ e ∈ C, b.OpenedBy e.1 e.2

namespace Agrees

variable {b b' : Bindings} {a : Arena} {root : NodeId} {C D : Opened}

/-- Fewer scopes may be listed. -/
theorem mono (h : b.Agrees a root C) (hD : D ⊆ C) : b.Agrees a root D :=
  ⟨h.fits, h.placed, fun e he => h.known e (hD he)⟩

/-- Only the scopes matter. -/
theorem congr (h : b.Agrees a root C) (hscopes : b'.scopes = b.scopes) : b'.Agrees a root C := by
  have hscope : ∀ i, b'.scope? i = b.scope? i := fun i => by rw [scope?, scope?, hscopes]
  have hopened : ∀ {i n}, b.OpenedBy i n → b'.OpenedBy i n := fun {i n} ⟨s, hs, hn⟩ =>
    ⟨s, (hscope i).trans hs, hn⟩
  refine ⟨fun i s hs => h.fits i s (hscope i ▸ hs), fun i s hs => ?_,
    fun e he => hopened (h.known e he)⟩
  refine (h.placed i s (hscope i ▸ hs)).imp_right ?_
  rintro ⟨outer, n, hparent, houter, henc⟩
  exact ⟨outer, n, hparent, hopened houter, henc⟩

/-- A scope may be changed, if its place stays and what is in it goes on to belong there. -/
theorem modify (h : b.Agrees a root C) {i : ScopeId} {change : Scope → Scope}
    (hnode : ∀ s, (change s).node = s.node) (hparent : ∀ s, (change s).parent = s.parent)
    (hfits : ∀ s, b.scope? i = some s → s.Fits a root → (change s).Fits a root) :
    ({ b with scopes := b.scopes.modify i change } : Bindings).Agrees a root C := by
  have hscope : ∀ j s', ({ b with scopes := b.scopes.modify i change } : Bindings).scope? j =
      some s' → ∃ s, b.scope? j = some s ∧ s'.node = s.node ∧ s'.parent = s.parent ∧
        (s.Fits a root → s'.Fits a root) := by
    intro j s' hs'
    simp only [scope?, Array.getElem?_modify] at hs'
    split at hs'
    · subst j
      obtain ⟨s, hs, rfl⟩ := Option.map_eq_some_iff.1 hs'
      exact ⟨s, hs, hnode s, hparent s, hfits s hs⟩
    · exact ⟨s', hs', rfl, rfl, id⟩
  have hopened : ∀ {j n}, b.OpenedBy j n →
      ({ b with scopes := b.scopes.modify i change } : Bindings).OpenedBy j n := by
    rintro j n ⟨s, hs, hn⟩
    simp only [OpenedBy, scope?, Array.getElem?_modify] at hs ⊢
    split
    · exact ⟨change s, by rw [hs]; rfl, (hnode s).trans hn⟩
    · exact ⟨s, hs, hn⟩
  refine ⟨fun j s' hs' => ?_, fun j s' hs' => ?_, fun e he => hopened (h.known e he)⟩
  · obtain ⟨s, hs, -, -, hsame⟩ := hscope j s' hs'
    exact hsame (h.fits j s hs)
  · obtain ⟨s, hs, hsnode, hsparent, -⟩ := hscope j s' hs'
    unfold Places
    rw [hsnode, hsparent]
    refine (h.placed j s hs).imp_right ?_
    rintro ⟨outer, n, hout, houter, henc⟩
    exact ⟨outer, n, hout, hopened houter, henc⟩

/-- A scope may be opened, if it is the first one or stands where its node does. -/
theorem push (h : b.Agrees a root C) {s : Scope} (hfits : s.Fits a root)
    (hplace : b.Places a root b.scopes.size s) :
    ({ b with scopes := b.scopes.push s } : Bindings).Agrees a root
      ((b.scopes.size, s.node) :: C) := by
  have hscope : ∀ j, ({ b with scopes := b.scopes.push s } : Bindings).scope? j =
      if j = b.scopes.size then some s else b.scope? j := fun j => Array.getElem?_push
  have hopened : ∀ {j n}, b.OpenedBy j n →
      ({ b with scopes := b.scopes.push s } : Bindings).OpenedBy j n := by
    rintro j n ⟨t, ht, hn⟩
    have hlt : j < b.scopes.size := (Array.getElem?_eq_some_iff.1 ht).1
    exact ⟨t, by rw [hscope, if_neg (Nat.ne_of_lt hlt), ht], hn⟩
  have hplaced : ∀ {j t}, b.Places a root j t →
      ({ b with scopes := b.scopes.push s } : Bindings).Places a root j t := by
    intro j t hplace
    refine hplace.imp_right ?_
    rintro ⟨outer, n, hout, houter, henc⟩
    exact ⟨outer, n, hout, hopened houter, henc⟩
  refine ⟨fun j t ht => ?_, fun j t ht => ?_, List.forall_mem_cons.2
    ⟨⟨s, by rw [hscope, if_pos rfl], rfl⟩, fun e he => hopened (h.known e he)⟩⟩
  · rw [hscope] at ht
    split at ht
    · exact Option.some.inj ht ▸ hfits
    · exact h.fits j t ht
  · rw [hscope] at ht
    split at ht
    · subst j
      exact Option.some.inj ht ▸ hplaced hplace
    · exact hplaced (h.placed j t ht)

end Agrees

/-- A change of a scope leaves the nodes that opened the scopes. -/
theorem openers_modify (b : Bindings) (i : ScopeId) {change : Scope → Scope}
    (hnode : ∀ s, (change s).node = s.node) :
    ({ b with scopes := b.scopes.modify i change } : Bindings).openers = b.openers := by
  refine List.ext_getElem? fun j => ?_
  simp only [openers, List.getElem?_map, Array.getElem?_toList, Array.getElem?_modify]
  split
  · rw [Option.map_map]
    exact congrFun (congrArg Option.map (funext hnode)) _
  · rfl

/-- A scope that is opened comes last. -/
theorem openers_push (b : Bindings) (s : Scope) :
    ({ b with scopes := b.scopes.push s } : Bindings).openers = b.openers ++ [s.node] := by
  simp [openers]

end Bindings

/-- A binder keeps its bindings in agreement with a tree, knowing the scopes listed in `C` and
making those listed in `N` known, and opens `k` scopes of the node `x`. -/
def Binds {α : Type} (a : Arena) (root x : NodeId) (C : Opened) (k : Nat) (p : Binder α)
    (N : α → Opened) : Prop :=
  ∀ b : Bindings, b.Agrees a root C → (p.run b).2.Agrees a root (N (p.run b).1 ++ C) ∧
    (p.run b).2.openers.count x = b.openers.count x + k

namespace Binds

variable {α β : Type} {a : Arena} {root x : NodeId} {C : Opened} {k l : Nat} {p q : Binder α}
  {N : α → Opened}

/-- A result may be returned. -/
theorem ret {r : α} : Binds a root x C 0 (pure r) fun _ => [] := fun _ h => ⟨h, rfl⟩

/-- A binder may be followed by another one, which may rely on what holds of results. -/
theorem bindOf {P : α → Prop} {f : α → Binder β} {M : β → Opened} (hp : Binds a root x C k p N)
    (hP : ∀ b : Bindings, b.Agrees a root C → P (p.run b).1)
    (hf : ∀ r, P r → Binds a root x (N r ++ C) l (f r) M) :
    Binds a root x C (k + l) (p >>= f) M := by
  intro b h
  obtain ⟨hagrees, hcount⟩ := hp b h
  obtain ⟨hagrees', hcount'⟩ := hf _ (hP b h) _ hagrees
  refine ⟨hagrees'.mono (List.append_subset.2 ⟨List.subset_append_left _ _, fun e he => ?_⟩), ?_⟩
  · exact List.mem_append_right _ (List.mem_append_right _ he)
  · rw [← Nat.add_assoc, ← hcount]
    exact hcount'

/-- A binder may be followed by another one. -/
theorem bind {f : α → Binder β} {M : β → Opened} (hp : Binds a root x C k p N)
    (hf : ∀ r, Binds a root x (N r ++ C) l (f r) M) : Binds a root x C (k + l) (p >>= f) M :=
  hp.bindOf (P := fun _ => True) (fun _ _ => trivial) fun r _ => hf r

/-- The number of scopes may be said in another way. -/
theorem counted (hp : Binds a root x C k p N) (hk : k = l) : Binds a root x C l p N := hk ▸ hp

/-- A binder that opens nothing may be followed by another one. -/
theorem andThen {f : α → Binder β} {M : β → Opened} (hp : Binds a root x C 0 p fun _ => [])
    (hf : ∀ r, Binds a root x C k (f r) M) : Binds a root x C k (p >>= f) M :=
  (hp.bind hf).counted (Nat.zero_add k)

/-- A binder may choose between two. -/
theorem ite {c : Prop} [Decidable c] (hp : Binds a root x C k p N) (hq : Binds a root x C k q N) :
    Binds a root x C k (if c then p else q) N := by
  split
  · exact hp
  · exact hq

/-- A binder that leaves the scopes opens nothing. -/
theorem note (hp : ∀ b, (p.run b).2.scopes = b.scopes) : Binds a root x C 0 p fun _ => [] :=
  fun b h => ⟨h.congr (hp b), by rw [Bindings.openers, hp, Bindings.openers]; rfl⟩

/-- A binder that only looks at the bindings opens nothing. -/
theorem read (hp : ∀ b, (p.run b).2 = b) : Binds a root x C 0 p fun _ => [] :=
  note fun b => congrArg Bindings.scopes (hp b)

/-- A step for each element of a list opens what the steps open together. -/
theorem forIn {ys : List β} {f : β → PUnit → Binder (ForInStep PUnit)} {weight : β → Nat}
    (h : ∀ y ∈ ys, ∃ p : Binder Unit, f y ⟨⟩ = (do p; return .yield ⟨⟩) ∧
      Binds a root x C (weight y) p fun _ => []) :
    Binds a root x C (ys.map weight).sum (forIn ys ⟨⟩ f) fun _ => [] := by
  induction ys with
  | nil => exact ret
  | cons y ys ih =>
    obtain ⟨p, hf, hp⟩ := h y List.mem_cons_self
    rw [List.forIn_cons, hf, bind_assoc]
    exact hp.bind fun _ => ih fun z hz => h z (List.mem_cons_of_mem _ hz)

/-- A step that opens nothing may be made for each element of a list. -/
theorem forInPlain {ys : List β} {f : β → PUnit → Binder (ForInStep PUnit)}
    (h : ∀ y ∈ ys, ∃ p : Binder Unit, f y ⟨⟩ = (do p; return .yield ⟨⟩) ∧
      Binds a root x C 0 p fun _ => []) :
    Binds a root x C 0 (ForIn.forIn ys ⟨⟩ f) fun _ => [] :=
  (forIn h).counted (by simp)

/-! ## Scopes -/

/-- A scope may be opened by a node in the scope that the names of the node belong to. -/
theorem openScope {kind : ScopeKind} {node owner : NodeId} {scope : ScopeId}
    (hreaches : a.Reaches root node) (hkind : (a.kind? node).bind ScopeKind.ofNode? = some kind)
    (hscope : (scope, owner) ∈ C) (henc : a.Encloses owner node) :
    Binds a root x C (if node = x then 1 else 0) (Binder.openScope kind node (some scope))
      fun i => [(i, node)] := by
  intro b h
  refine ⟨h.push ⟨hreaches, hkind, ?_, ?_⟩ (.inr ⟨scope, owner, rfl, h.known _ hscope, henc⟩), ?_⟩
  · simp
  · simp [Named.get?]
  · refine (congrArg (List.count x) (b.openers_push _)).trans ?_
    rw [List.count_append, List.count_singleton]
    simp only [beq_iff_eq]

/-- A scope may be changed, if what is in it goes on to belong there. -/
theorem modifyScope {scope : ScopeId} {change : Scope → Scope}
    (hnode : ∀ s, (change s).node = s.node) (hparent : ∀ s, (change s).parent = s.parent)
    (hfits : ∀ s, (∀ owner, (scope, owner) ∈ C → s.node = owner) → s.Fits a root →
      (change s).Fits a root) :
    Binds a root x C 0 (Binder.modifyScope scope change) fun _ => [] := by
  intro b h
  refine ⟨h.modify hnode hparent fun s hs => hfits s fun owner howner => ?_, ?_⟩
  · obtain ⟨t, ht, hn⟩ := h.known _ howner
    obtain rfl := Option.some.inj (hs.symm.trans ht)
    exact hn
  · exact congrArg (List.count x) (b.openers_modify scope hnode)

/-- The scope that receives a declaration may be looked for. -/
theorem targetScope (scope : ScopeId) (name : String) :
    Binds a root x C 0 (Binder.targetScope scope name) fun _ => [] := read fun b => by
  show ((if _ then pure _ else if _ then pure _ else pure _ : Binder ScopeId).run b).2 = b
  split
  · rfl
  · split <;> rfl

/-- The scope that receives a local variable is the one in which it is declared. -/
theorem targetScope_eq {b : Bindings} (h : b.Agrees a root C) {name : String}
    (hfree : ¬ a.Disclaims root name) (scope : ScopeId) :
    ((Binder.targetScope scope name).run b).1 = scope := by
  -- A scope that is not there has no names that stand for those of others.
  have hhere : ∀ y, y ∈ ((b.scope? scope).getD default).globals ∨
      y ∈ ((b.scope? scope).getD default).nonlocals → a.Disclaims root y := by
    cases hs : b.scope? scope with
    | none => exact fun y hy => hy.elim (absurd · List.not_mem_nil) (absurd · List.not_mem_nil)
    | some s => exact (h.fits scope s hs).disclaimed
  have hglobal : ((b.scope? scope).getD default).globals.contains name = false := by
    simpa using fun hmem => hfree (hhere name (.inl hmem))
  have hnonlocal : ((b.scope? scope).getD default).nonlocals.contains name = false := by
    simpa using fun hmem => hfree (hhere name (.inr hmem))
  show ((if List.contains _ _ then pure _ else if List.contains _ _ then pure _ else pure scope :
    Binder ScopeId).run b).1 = scope
  rw [hglobal, hnonlocal]
  rfl

/-- A name may be declared, if a local variable is declared in the scope that it belongs to. -/
theorem declare {scope : ScopeId} {name : String} {d : Declaration}
    (hd : d.IsLocal a root name → ∃ owner, (scope, owner) ∈ C ∧ a.Encloses owner d.node) :
    Binds a root x C 0 (Binder.declare scope name d) fun _ => [] := by
  refine ite ret ((targetScope scope name).bindOf (l := 0)
    (P := fun target => d.IsLocal a root name → target = scope)
    (fun b h hlocal => targetScope_eq h hlocal.free scope) fun target htarget => ?_)
  refine (note fun _ => rfl).andThen fun _ => modifyScope (fun _ => rfl) (fun _ => rfl) ?_
  intro s howner hfits
  refine ⟨hfits.reaches, hfits.kind, hfits.disclaimed, fun y e he hlocal => ?_⟩
  -- Only what has been declared of the name is changed, where the declaration comes last.
  simp only [Named.get?_alter] at he
  split at he
  · subst y
    rcases List.mem_append.1 he with he | he
    · exact hfits.declared _ e he hlocal
    · obtain rfl := List.mem_singleton.1 he
      obtain ⟨owner, hmem, henc⟩ := hd hlocal
      obtain rfl := htarget hlocal
      exact (howner owner hmem).symm ▸ henc
  · exact hfits.declared y e he hlocal

/-- A name node may be declared, if it declares no variable or stands in the scope. -/
theorem declareNode {scope : ScopeId} {node : NodeId} {d : Declaration}
    (hd : d.kind = .variable → ∃ owner, (scope, owner) ∈ C ∧ a.Encloses owner d.node) :
    Binds a root x C 0 (Binder.declareNode a scope node d) fun _ => [] := by
  unfold Binder.declareNode
  split
  · exact declare fun h => hd h.kind
  · exact ret

end Binds

end TypeProbe
