import TypeProbe.Proofs.Scope.Steps

/-!
# What a binder leaves behind

A binder takes nothing back: scopes stay as they were opened, and what has been declared stays
declared (`Bindings.Grows`). Of every declaration that a scope lists later on, the time at which it
was listed can be read off: `Bindings.declarations` has them all, the last one first.

`Notes a t i k p` says of a binder that is run where the scope `i` is there that it takes nothing
back, that it walks the body of each function whose scope it opens (`Arena.Entered`), and that it
makes at most `k` declarations of the node `t`. Its rules follow the shapes that binders are written
in.
-/

namespace TypeProbe

/-- A scope stays the one that it is, and more names in it may stand for those of other scopes. -/
structure Scope.GrowsTo (s s' : Scope) : Prop where
  /-- It is opened by the same thing. -/
  kind : s'.kind = s.kind
  /-- It is opened by the same node. -/
  node : s'.node = s.node
  /-- It stays where it is. -/
  parent : s'.parent = s.parent
  /-- The names of the module stay those. -/
  globals : s.globals ⊆ s'.globals
  /-- The names of functions around stay those. -/
  nonlocals : s.nonlocals ⊆ s'.nonlocals

/-- A scope is the one that it is. -/
theorem Scope.GrowsTo.refl (s : Scope) : s.GrowsTo s :=
  ⟨rfl, rfl, rfl, List.Subset.refl _, List.Subset.refl _⟩

/-- A scope has a declaration under one of its names. -/
def Scope.Has (s : Scope) (d : Declaration) : Prop := ∃ field ∈ s.symbols, d ∈ field.2

/-- The declarations that a scope lists under a name. -/
def Scope.listed (s : Scope) (x : String) : List Declaration := (s.symbols.get? x).getD []

namespace Arena

/-- A node is the body of a function. -/
def IsBody (a : Arena) (function suite : NodeId) : Prop :=
  ∃ decorators isAsync title parameters returnHint,
    a.form? function = some (.function decorators isAsync title parameters returnHint suite)

variable {a : Arena} {n suite suite' : NodeId} {form : Form}

/-- A function has one body. -/
theorem IsBody.unique (h : a.IsBody n suite) (h' : a.IsBody n suite') : suite = suite' := by
  obtain ⟨_, _, _, _, _, hform⟩ := h
  obtain ⟨_, _, _, _, _, hform'⟩ := h'
  obtain ⟨-, -, -, -, -, hsuite⟩ := Form.function.inj (Option.some.inj (hform.symm.trans hform'))
  exact hsuite

/-- What is no function has no body that is one of a function. -/
theorem not_isBody (hform : a.form? n = some form) (hkind : (form.kind == .function) = false) :
    ¬ a.IsBody n suite := by
  rintro ⟨_, _, _, _, _, hfunction⟩
  obtain rfl := Option.some.inj (hfunction.symm.trans hform)
  cases hkind

end Arena

namespace Bindings

/-- The declarations that a scope lists under a name. -/
def listed (b : Bindings) (i : ScopeId) (x : String) : List Declaration :=
  (b.scope? i).elim [] (·.listed x)

/-- The way outwards ends, and a scope has no name without declarations. -/
structure Tidy (b : Bindings) : Prop where
  /-- The scope around a scope comes before it. -/
  outward : ∀ i s, b.scope? i = some s → ∀ o, s.parent = some o → o < i
  /-- Names that are there are declared. -/
  declared : ∀ i s x, b.scope? i = some s → s.symbols.get? x ≠ some []

/-- Declarations are noted under the nodes that make them. -/
structure Filed (b : Bindings) : Prop where
  /-- The node is the one that makes the declaration. -/
  node : ∀ e ∈ b.declarations, e.2.node = e.1
  /-- What scopes have is declared. -/
  symbols : ∀ i s d, b.scope? i = some s → s.Has d → (d.node, d) ∈ b.declarations
  /-- What methods give to their objects is declared. -/
  members : ∀ e ∈ b.members, (e.2.2.node, e.2.2) ∈ b.declarations

/-- Nothing is taken back, and what is listed later on has been declared later on. -/
structure Grows (b b' : Bindings) : Prop where
  /-- The scopes stay. -/
  scopes : ∀ i s, b.scope? i = some s → ∃ s', b'.scope? i = some s' ∧ s.GrowsTo s'
  /-- Order is kept. -/
  tidy : b.Tidy → b'.Tidy
  /-- Declarations are noted under their nodes. -/
  filed : b.Filed → b'.Filed
  /-- What is listed stays listed. -/
  listed : ∀ i x, b.listed i x ⊆ b'.listed i x
  /-- What is declared stays declared, and what is new among the listed is among the newer. -/
  declarations : ∃ newer, b'.declarations = newer ++ b.declarations ∧
    ∀ i x, ∀ d ∈ b'.listed i x, d ∈ b.listed i x ∨ (d.node, d) ∈ newer

variable {b b' b'' : Bindings} {i j : ScopeId} {x y : String} {d : Declaration} {s : Scope}

/-- A scope that is found is there. -/
theorem lt_size_of_scope? (h : b.scope? i = some s) : i < b.scopes.size :=
  (Array.getElem?_eq_some_iff.1 h).1

/-- A scope that is there is found. -/
theorem exists_scope? (h : i < b.scopes.size) : ∃ s, b.scope? i = some s :=
  ⟨_, Array.getElem?_eq_some_iff.2 ⟨h, rfl⟩⟩

namespace Grows

/-- Bindings may stay as they are. -/
theorem refl (b : Bindings) : b.Grows b where
  scopes _ s hs := ⟨s, hs, .refl s⟩
  tidy := id
  filed := id
  listed _ _ := List.Subset.refl _
  declarations := ⟨[], rfl, fun _ _ _ hd => .inl hd⟩

/-- Bindings may go on to grow. -/
theorem trans (h : b.Grows b') (h' : b'.Grows b'') : b.Grows b'' where
  scopes i s hs := by
    obtain ⟨s', hs', hg⟩ := h.scopes i s hs
    obtain ⟨s'', hs'', hg'⟩ := h'.scopes i s' hs'
    exact ⟨s'', hs'', hg'.kind.trans hg.kind, hg'.node.trans hg.node, hg'.parent.trans hg.parent,
      List.Subset.trans hg.globals hg'.globals, List.Subset.trans hg.nonlocals hg'.nonlocals⟩
  tidy := h'.tidy ∘ h.tidy
  filed := h'.filed ∘ h.filed
  listed i x := List.Subset.trans (h.listed i x) (h'.listed i x)
  declarations := by
    obtain ⟨newer, hnewer, hnew⟩ := h.declarations
    obtain ⟨newest, hnewest, hnew'⟩ := h'.declarations
    refine ⟨newest ++ newer, by rw [hnewest, hnewer, List.append_assoc], fun i x d hd => ?_⟩
    rcases hnew' i x d hd with hd | hd
    · exact (hnew i x d hd).imp_right (List.mem_append_right _)
    · exact .inr (List.mem_append_left _ hd)

/-- There are no fewer scopes. -/
theorem size_le (h : b.Grows b') : b.scopes.size ≤ b'.scopes.size := by
  by_contra hlt
  obtain ⟨s, hs⟩ := exists_scope? (Nat.not_le.1 hlt)
  obtain ⟨s', hs', -⟩ := h.scopes _ s hs
  exact Nat.lt_irrefl _ (lt_size_of_scope? hs')

/-- A scope stays there. -/
theorem lt_size (h : b.Grows b') (hi : i < b.scopes.size) : i < b'.scopes.size :=
  Nat.lt_of_lt_of_le hi h.size_le

/-- A scope that was there has been opened by the node that opened it then. -/
theorem openedBy {n : NodeId} (h : b.Grows b') (hi : i < b.scopes.size)
    (hopened : b'.OpenedBy i n) : b.OpenedBy i n := by
  obtain ⟨s, hs⟩ := exists_scope? hi
  obtain ⟨s', hs', hg⟩ := h.scopes i s hs
  obtain ⟨t, ht, rfl⟩ := hopened
  obtain rfl := Option.some.inj (hs'.symm.trans ht)
  exact ⟨s, hs, hg.node.symm⟩

/-- Declarations that are listed nowhere may be made. -/
theorem note (hscopes : b'.scopes = b.scopes)
    (hnewer : ∃ newer, b'.declarations = newer ++ b.declarations) (hfiled : b.Filed → b'.Filed) :
    b.Grows b' := by
  have hscope : ∀ i, b'.scope? i = b.scope? i := fun i => by rw [scope?, scope?, hscopes]
  have hlisted : ∀ i x, b'.listed i x = b.listed i x := fun i x => by
    rw [Bindings.listed, Bindings.listed, hscope]
  obtain ⟨newer, hnewer⟩ := hnewer
  refine ⟨fun i s hs => ?_, fun htidy => ⟨fun i s hs => ?_, fun i s x hs => ?_⟩, hfiled,
    fun i x => ?_, newer, hnewer, fun i x d hd => .inl (hlisted i x ▸ hd)⟩
  · exact ⟨s, (hscope i).trans hs, .refl s⟩
  · exact htidy.outward i s (hscope i ▸ hs)
  · exact htidy.declared i s x (hscope i ▸ hs)
  · rw [hlisted]
    exact List.Subset.refl _

end Grows

/-- A scope after one has been opened. -/
theorem scope?_push (b : Bindings) (s : Scope) (j : ScopeId) :
    ({ b with scopes := b.scopes.push s } : Bindings).scope? j =
      if j = b.scopes.size then some s else b.scope? j := Array.getElem?_push

/-- What holds of a scope that is kept and of one that is changed holds of all scopes after one of
them has been changed. -/
theorem exists_scope?_of_modify {change : Scope → Scope} (hscopes : b'.scopes =
    b.scopes.modify i change) {P : Scope → Scope → Prop} (hkept : ∀ s, P s s)
    (hchanged : ∀ s, P s (change s)) {s' : Scope} (hs' : b'.scope? j = some s') :
    ∃ s, b.scope? j = some s ∧ P s s' := by
  rw [scope?, hscopes, Array.getElem?_modify] at hs'
  split at hs'
  · obtain ⟨s, hs, rfl⟩ := Option.map_eq_some_iff.1 hs'
    exact ⟨s, hs, hchanged s⟩
  · exact ⟨s', hs', hkept s'⟩

/-- What a scope lists after one has been changed is what it listed, or what it lists by the
change. -/
theorem listed_of_modify {change : Scope → Scope} (hscopes : b'.scopes =
    b.scopes.modify i change) (j : ScopeId) (x : String) : b'.listed j x = b.listed j x ∨
      ∃ s, b.listed j x = s.listed x ∧ b'.listed j x = (change s).listed x := by
  have hscope : b'.scope? j = if i = j then (b.scope? j).map change else b.scope? j := by
    rw [scope?, hscopes, Array.getElem?_modify, scope?]
  unfold listed
  rw [hscope]
  split
  · cases b.scope? j with
    | none => exact .inl rfl
    | some s => exact .inr ⟨s, rfl, rfl⟩
  · exact .inl rfl

/-- A scope may be changed, if it stays the one that it is and what is new among what it lists has
been declared. -/
theorem grows_change (b : Bindings) (i : ScopeId) {change : Scope → Scope}
    (newer : List (NodeId × Declaration)) (hnewer : ∀ e ∈ newer, e.2.node = e.1)
    (hgrows : ∀ s : Scope, s.GrowsTo (change s))
    (hold : ∀ s x, s.listed x ⊆ (change s).listed x)
    (hnew : ∀ s x, ∀ d ∈ (change s).listed x, d ∈ s.listed x ∨ (d.node, d) ∈ newer)
    (hhas : ∀ s d, (change s).Has d → s.Has d ∨ (d.node, d) ∈ newer)
    (hdeclared : ∀ s x, s.symbols.get? x ≠ some [] → (change s).symbols.get? x ≠ some []) :
    b.Grows { b with
      scopes := b.scopes.modify i change
      declarations := newer ++ b.declarations } := by
  generalize hb' : ({ b with
    scopes := b.scopes.modify i change
    declarations := newer ++ b.declarations } : Bindings) = b'
  have hscopes : b'.scopes = b.scopes.modify i change := hb' ▸ rfl
  have hfiled : b.Filed → b'.Filed := by
    refine fun hb => ⟨fun e he => ?_, fun j s' d hs' hd => ?_, fun e he => ?_⟩
    · subst hb'
      exact (List.mem_append.1 he).elim (hnewer e) (hb.node e)
    · obtain ⟨s, hs, hsame⟩ := exists_scope?_of_modify (P := fun s s' =>
        ∀ d, s'.Has d → s.Has d ∨ (d.node, d) ∈ newer) hscopes (fun _ _ => .inl) hhas hs'
      subst hb'
      exact List.mem_append.2 ((hsame d hd).symm.imp_right (hb.symbols j s d hs))
    · subst hb'
      exact List.mem_append_right _ (hb.members e he)
  refine ⟨fun j s hs => ?_, fun htidy => ⟨fun j s' hs' => ?_, fun j s' x hs' => ?_⟩, hfiled,
    fun j x => ?_, newer, hb' ▸ rfl, fun j x d hd => ?_⟩
  · rw [scope?, hscopes, Array.getElem?_modify, ← scope?, hs]
    split
    · exact ⟨change s, rfl, hgrows s⟩
    · exact ⟨s, rfl, .refl s⟩
  · obtain ⟨s, hs, hparent⟩ := exists_scope?_of_modify (P := fun s s' => s'.parent = s.parent)
      hscopes (fun _ => rfl) (fun s => (hgrows s).parent) hs'
    exact hparent ▸ htidy.outward j s hs
  · obtain ⟨s, hs, hkeeps⟩ := exists_scope?_of_modify (P := fun s s' =>
      s.symbols.get? x ≠ some [] → s'.symbols.get? x ≠ some []) hscopes (fun _ => id)
      (fun s => hdeclared s x) hs'
    exact hkeeps (htidy.declared j s x hs)
  · rcases listed_of_modify hscopes j x with heq | ⟨s, heq, heq'⟩
    · rw [heq]
      exact List.Subset.refl _
    · rw [heq, heq']
      exact hold s x
  · rcases listed_of_modify hscopes j x with heq | ⟨s, heq, heq'⟩
    · exact .inl (heq ▸ hd)
    · rw [heq]
      exact hnew s x d (heq' ▸ hd)

/-- Names may be noted in a scope to stand for those of other scopes. -/
theorem grows_modify (b : Bindings) (i : ScopeId) {change : Scope → Scope}
    (hgrows : ∀ s : Scope, s.GrowsTo (change s)) (hsymbols : ∀ s, (change s).symbols = s.symbols) :
    b.Grows { b with scopes := b.scopes.modify i change } := by
  have hlisted : ∀ s x, (change s).listed x = s.listed x := fun s x => by
    rw [Scope.listed, hsymbols, Scope.listed]
  refine grows_change b i [] nofun hgrows (fun s x => ?_) (fun s x d hd => ?_) (fun s d hd => ?_)
    fun s x hne => ?_
  · rw [hlisted]
    exact List.Subset.refl _
  · exact .inl (hlisted s x ▸ hd)
  · rw [Scope.Has, hsymbols] at hd
    exact .inl hd
  · rwa [hsymbols]

/-- A scope may be opened in one that is there. -/
theorem grows_push (b : Bindings) {s : Scope} (hsymbols : s.symbols = [])
    (hparent : ∀ o, s.parent = some o → o < b.scopes.size) :
    b.Grows { b with scopes := b.scopes.push s } := by
  have hold : ∀ {j t}, b.scope? j = some t →
      ({ b with scopes := b.scopes.push s } : Bindings).scope? j = some t := by
    intro j t ht
    rw [scope?_push, if_neg (Nat.ne_of_lt (lt_size_of_scope? ht)), ht]
  have hlisted : ∀ j x, ({ b with scopes := b.scopes.push s } : Bindings).listed j x =
      b.listed j x := by
    intro j x
    unfold listed
    rw [scope?_push]
    split
    · rename_i hj
      subst hj
      have hnone : b.scope? b.scopes.size = none := Array.getElem?_eq_none_iff.2 (Nat.le_refl _)
      rw [hnone, Option.elim_some, Scope.listed, hsymbols]
      rfl
    · rfl
  refine ⟨fun j t ht => ?_, fun htidy => ⟨fun j t ht => ?_, fun j t x ht => ?_⟩,
    fun hb => ⟨hb.node, fun j t d ht hd => ?_, hb.members⟩, fun j x => ?_, [], rfl,
    fun j x d hd => .inl (hlisted j x ▸ hd)⟩
  · exact ⟨t, hold ht, .refl t⟩
  · rw [scope?_push] at ht
    split at ht
    · rename_i hj
      obtain rfl := Option.some.inj ht
      exact hj ▸ hparent
    · exact htidy.outward j t ht
  · rw [scope?_push] at ht
    split at ht
    · obtain rfl := Option.some.inj ht
      rw [hsymbols]
      exact fun hnil => by cases hnil
    · exact htidy.declared j t x ht
  · rw [scope?_push] at ht
    split at ht
    · obtain rfl := Option.some.inj ht
      rw [Scope.Has, hsymbols] at hd
      obtain ⟨_, hnil, -⟩ := hd
      cases hnil
    · exact hb.symbols j t d ht hd
  · rw [hlisted]
    exact List.Subset.refl _

/-- The scope that receives a declaration made in a scope. -/
def target (b : Bindings) (scope : ScopeId) (x : String) : ScopeId :=
  let here := (b.scope? scope).getD default
  if here.globals.contains x then moduleScope
  else if here.nonlocals.contains x then
    (Binder.functionWith b x (b.scopes.size + 1) here.parent).getD scope
  else scope

/-- Looking for the scope that receives a declaration changes nothing. -/
theorem run_targetScope (b : Bindings) (scope : ScopeId) (x : String) :
    (Binder.targetScope scope x).run b = (b.target scope x, b) := by
  show ((if _ then pure _ else if _ then pure _ else pure _ : Binder ScopeId).run b) = _
  unfold target
  dsimp only
  split
  · rfl
  · split <;> rfl

/-- The bindings with one more declaration, which a scope lists. -/
def declaredAt (b : Bindings) (i : ScopeId) (x : String) (d : Declaration) : Bindings :=
  { b with
    declarations := (d.node, d) :: b.declarations
    scopes := b.scopes.modify i fun s =>
      { s with symbols := s.symbols.alter x [] (· ++ [d]) } }

/-- What a scope lists after one more declaration. -/
theorem listed_alter (s : Scope) (x y : String) (d : Declaration) :
    ({ s with symbols := s.symbols.alter x [] (· ++ [d]) } : Scope).listed y =
      if y = x then s.listed x ++ [d] else s.listed y := by
  unfold Scope.listed
  rw [Named.get?_alter]
  split <;> rfl

/-- What is listed after one more declaration. -/
theorem listed_declaredAt (b : Bindings) {i : ScopeId} (hi : i < b.scopes.size) (x : String)
    (d : Declaration) (j : ScopeId) (y : String) : (b.declaredAt i x d).listed j y =
      if j = i ∧ y = x then b.listed i x ++ [d] else b.listed j y := by
  unfold listed declaredAt
  rw [scope?, Array.getElem?_modify]
  by_cases hij : j = i
  · subst hij
    rw [if_pos rfl, ← scope?, scope?, Array.getElem?_eq_getElem hi]
    simp only [Option.map_some, Option.elim_some, listed_alter, true_and]
  · rw [if_neg (Ne.symm hij), if_neg fun h => hij h.1]
    rfl

/-- What is among named lists after a declaration has been added to one of them was there before, or
is that declaration. -/
theorem mem_alter {t : Named (List Declaration)} {field : String × List Declaration}
    {e : Declaration} (h : field ∈ t.alter x [] (· ++ [e])) (hd : d ∈ field.2) :
    (∃ field ∈ t, d ∈ field.2) ∨ d = e := by
  induction t with
  | nil =>
    rw [List.mem_singleton.1 h] at hd
    exact .inr (List.mem_singleton.1 hd)
  | cons entry rest ih =>
    rw [Named.alter] at h
    split at h
    · rcases List.mem_cons.1 h with rfl | hrest
      · rcases List.mem_append.1 hd with hd | hd
        · exact .inl ⟨entry, List.mem_cons_self, hd⟩
        · exact .inr (List.mem_singleton.1 hd)
      · exact .inl ⟨field, List.mem_cons_of_mem _ hrest, hd⟩
    · rcases List.mem_cons.1 h with heq | hrest
      · exact .inl ⟨field, List.mem_cons.2 (.inl heq), hd⟩
      · exact (ih hrest).imp_left fun ⟨field, hfield, hd⟩ =>
          ⟨field, List.mem_cons_of_mem _ hfield, hd⟩

/-- A declaration may be made and listed. -/
theorem grows_declaredAt (b : Bindings) (i : ScopeId) (x : String) (d : Declaration) :
    b.Grows (b.declaredAt i x d) := by
  have hnewer : ∀ e ∈ [(d.node, d)], e.2.node = e.1 := by
    rintro e he
    rw [List.mem_singleton.1 he]
  refine grows_change b i [(d.node, d)] hnewer
    (fun s => ⟨rfl, rfl, rfl, List.Subset.refl _, List.Subset.refl _⟩) (fun s y => ?_)
    (fun s y e he => ?_) (fun s e he => ?_) fun s y hne => ?_
  · rw [listed_alter]
    split
    · subst y
      exact List.subset_append_left _ _
    · exact List.Subset.refl _
  · rw [listed_alter] at he
    split at he
    · subst y
      refine (List.mem_append.1 he).imp_right fun he => ?_
      rw [List.mem_singleton.1 he]
      exact List.mem_singleton.2 rfl
    · exact .inl he
  · obtain ⟨field, hfield, he⟩ := he
    rcases mem_alter hfield he with he | rfl
    · exact .inl he
    · exact .inr (List.mem_singleton.2 rfl)
  · rw [Named.get?_alter]
    split
    · simp
    · exact hne

/-- How many declarations of a node have been made. -/
def times (b : Bindings) (t : NodeId) : Nat := (b.declarations.map (·.1)).count t

end Bindings

/-- The bodies of the functions whose scopes have been opened in between were walked in these
scopes. -/
def Arena.Entered (a : Arena) (b b' : Bindings) : Prop :=
  ∀ function suite i, a.IsBody function suite → b.scopes.size ≤ i → b'.OpenedBy i function →
    ∃ fuel frame b₀, suite < fuel ∧ i < b₀.scopes.size ∧ b.Grows b₀ ∧
      ((Binder.walk a fuel ⟨i, frame⟩ suite).run b₀).2.Grows b'

/-- Bindings have grown, functions have been walked whose scopes have been opened, and there are at
most `k` declarations more of the node `t`. -/
structure Bindings.Advances (b : Bindings) (a : Arena) (t : NodeId) (k : Nat) (b' : Bindings) :
    Prop where
  /-- Nothing has been taken back. -/
  grows : b.Grows b'
  /-- The bodies of new functions have been walked. -/
  entered : a.Entered b b'
  /-- There are only so many declarations more. -/
  declares : b'.times t ≤ b.times t + k

namespace Bindings.Advances

variable {b b' b'' : Bindings} {a : Arena} {t : NodeId} {k l : Nat}

/-- Where no scope is opened no function is. -/
theorem of_size (hgrows : b.Grows b') (hsize : b'.scopes.size = b.scopes.size)
    (hdeclares : b'.times t ≤ b.times t + k) : b.Advances a t k b' := by
  refine ⟨hgrows, fun _ _ i _ hi hopened => ?_, hdeclares⟩
  -- A scope that was opened in between would have a place that no scope has.
  obtain ⟨s, hs, -⟩ := hopened
  exact absurd (hsize ▸ lt_size_of_scope? hs) (Nat.not_lt.2 hi)

/-- More declarations may be allowed. -/
theorem mono (h : b.Advances a t k b') (hkl : k ≤ l) : b.Advances a t l b' :=
  ⟨h.grows, h.entered, Nat.le_trans h.declares (Nat.add_le_add_left hkl _)⟩

/-- Bindings may go on. -/
theorem trans (h : b.Advances a t k b') (h' : b'.Advances a t l b'') :
    b.Advances a t (k + l) b'' := by
  refine ⟨h.grows.trans h'.grows, fun function suite i hbody hi hopened => ?_, ?_⟩
  · -- The scope was opened in the first part or in the second one.
    rcases Nat.lt_or_ge i b'.scopes.size with hlt | hge
    · obtain ⟨fuel, frame, b₀, hfuel, hsize, hbefore, hafter⟩ :=
        h.entered function suite i hbody hi (h'.grows.openedBy hlt hopened)
      exact ⟨fuel, frame, b₀, hfuel, hsize, hbefore, hafter.trans h'.grows⟩
    · obtain ⟨fuel, frame, b₀, hfuel, hsize, hbefore, hafter⟩ :=
        h'.entered function suite i hbody hge hopened
      exact ⟨fuel, frame, b₀, hfuel, hsize, h.grows.trans hbefore, hafter⟩
  · calc b''.times t ≤ b'.times t + l := h'.declares
      _ ≤ b.times t + k + l := Nat.add_le_add_right h.declares l
      _ = b.times t + (k + l) := Nat.add_assoc _ _ _

/-- Bindings may go on from a scope that is opened, if a function of which it is the scope is walked
there. -/
theorem opened {s : Scope} (hsymbols : s.symbols = [])
    (hparent : ∀ o, s.parent = some o → o < b.scopes.size)
    (hbody : ∀ suite, a.IsBody s.node suite → ∃ fuel frame b₀, suite < fuel ∧
      ({ b with scopes := b.scopes.push s } : Bindings).Grows b₀ ∧
        ((Binder.walk a fuel ⟨b.scopes.size, frame⟩ suite).run b₀).2.Grows b'')
    (h : ({ b with scopes := b.scopes.push s } : Bindings).Advances a t k b'') :
    b.Advances a t k b'' := by
  have hopen := b.grows_push hsymbols hparent
  have hsize : ({ b with scopes := b.scopes.push s } : Bindings).scopes.size =
      b.scopes.size + 1 := Array.size_push _
  have hlt : b.scopes.size < ({ b with scopes := b.scopes.push s } : Bindings).scopes.size :=
    hsize ▸ Nat.lt_succ_self _
  refine ⟨hopen.trans h.grows, fun function suite i hsuite hi hopened => ?_, h.declares⟩
  rcases Nat.eq_or_lt_of_le hi with rfl | hi
  · -- The scope that was opened first is that of its node, which is walked there.
    obtain ⟨s', hs', hnode⟩ := h.grows.openedBy hlt hopened
    rw [scope?_push, if_pos rfl] at hs'
    obtain rfl := Option.some.inj hs'
    obtain rfl := hnode
    obtain ⟨fuel, frame, b₀, hfuel, hbefore, hafter⟩ := hbody suite hsuite
    exact ⟨fuel, frame, b₀, hfuel, hbefore.lt_size hlt, hopen.trans hbefore, hafter⟩
  · obtain ⟨fuel, frame, b₀, hfuel, hsize₀, hbefore, hafter⟩ :=
      h.entered function suite i hsuite (hsize ▸ hi) hopened
    exact ⟨fuel, frame, b₀, hfuel, hsize₀, hopen.trans hbefore, hafter⟩

end Bindings.Advances

/-- A binder that is run where the scope `i` is there takes nothing back, walks the bodies of the
functions whose scopes it opens, and makes at most `k` declarations of the node `t`. -/
def Notes {α : Type} (a : Arena) (t : NodeId) (i : ScopeId) (k : Nat) (p : Binder α) : Prop :=
  ∀ b : Bindings, i < b.scopes.size → b.Advances a t k (p.run b).2

namespace Notes

variable {α β : Type} {a : Arena} {t : NodeId} {i : ScopeId} {k l : Nat} {p q : Binder α}

/-- A result may be returned. -/
theorem ret {r : α} : Notes a t i 0 (pure r : Binder α) := fun b _ =>
  .of_size (.refl b) rfl (Nat.le_refl _)

/-- More declarations may be allowed. -/
theorem mono (hp : Notes a t i k p) (hkl : k ≤ l) : Notes a t i l p := fun b hi =>
  (hp b hi).mono hkl

/-- A binder may be followed by another one, which may rely on what holds of results. -/
theorem bindOf {P : α → Prop} {f : α → Binder β} (hp : Notes a t i k p)
    (hP : ∀ b : Bindings, P (p.run b).1) (hf : ∀ r, P r → Notes a t i l (f r)) :
    Notes a t i (k + l) (p >>= f) := fun b hi =>
  (hp b hi).trans (hf _ (hP b) _ ((hp b hi).grows.lt_size hi))

/-- A binder may be followed by another one. -/
theorem bind {f : α → Binder β} (hp : Notes a t i k p) (hf : ∀ r, Notes a t i l (f r)) :
    Notes a t i (k + l) (p >>= f) :=
  hp.bindOf (P := fun _ => True) (fun _ => trivial) fun r _ => hf r

/-- A binder that makes no declarations may be followed by another one. -/
theorem andThen {f : α → Binder β} (hp : Notes a t i 0 p) (hf : ∀ r, Notes a t i k (f r)) :
    Notes a t i k (p >>= f) := (hp.bind hf).mono (Nat.le_of_eq (Nat.zero_add k))

/-- A binder may be followed by another one that makes no declarations. -/
theorem before {f : α → Binder β} (hp : Notes a t i k p) (hf : ∀ r, Notes a t i 0 (f r)) :
    Notes a t i k (p >>= f) := hp.bind hf

/-- A binder may choose between two. -/
theorem ite {c : Prop} [Decidable c] (hp : Notes a t i k p) (hq : Notes a t i k q) :
    Notes a t i k (if c then p else q) := by
  split
  · exact hp
  · exact hq

/-- A binder that leaves the scopes, the declarations and the members takes nothing back. -/
theorem note (hscopes : ∀ b, (p.run b).2.scopes = b.scopes)
    (hdeclarations : ∀ b, (p.run b).2.declarations = b.declarations)
    (hmembers : ∀ b, (p.run b).2.members = b.members) : Notes a t i 0 p := by
  intro b _
  refine .of_size (.note (hscopes b) ⟨[], hdeclarations b⟩ fun hb => ⟨fun e he => ?_,
    fun i s d hs hd => ?_, fun e he => ?_⟩) (by rw [hscopes]) ?_
  · rw [hdeclarations] at he
    exact hb.node e he
  · rw [Bindings.scope?, hscopes] at hs
    rw [hdeclarations]
    exact hb.symbols i s d hs hd
  · rw [hmembers] at he
    rw [hdeclarations]
    exact hb.members e he
  · rw [Bindings.times, hdeclarations]
    exact Nat.le_refl _

/-- A binder that only looks at the bindings takes nothing back. -/
theorem read (hp : ∀ b, (p.run b).2 = b) : Notes a t i 0 p :=
  note (fun b => congrArg Bindings.scopes (hp b)) (fun b => congrArg Bindings.declarations (hp b))
    fun b => congrArg Bindings.members (hp b)

/-- A step for each element of a list makes the declarations that the steps make together. -/
theorem forIn {ys : List β} {f : β → PUnit → Binder (ForInStep PUnit)} {weight : β → Nat}
    (h : ∀ y ∈ ys, ∃ p : Binder Unit, f y ⟨⟩ = (do p; return .yield ⟨⟩) ∧
      Notes a t i (weight y) p) :
    Notes a t i (ys.map weight).sum (forIn ys ⟨⟩ f) := by
  induction ys with
  | nil => exact ret
  | cons y ys ih =>
    obtain ⟨p, hf, hp⟩ := h y List.mem_cons_self
    rw [List.forIn_cons, hf, bind_assoc]
    exact hp.bind fun _ => ih fun z hz => h z (List.mem_cons_of_mem _ hz)

/-- A step that makes no declarations may be made for each element of a list. -/
theorem forInPlain {ys : List β} {f : β → PUnit → Binder (ForInStep PUnit)}
    (h : ∀ y ∈ ys, ∃ p : Binder Unit, f y ⟨⟩ = (do p; return .yield ⟨⟩) ∧ Notes a t i 0 p) :
    Notes a t i 0 (ForIn.forIn ys ⟨⟩ f) := (forIn h).mono (by simp)

/-! ## Scopes and declarations -/

/-- A scope may be opened for what comes next, if a function of which it is the scope is walked
there. -/
theorem opened {kind : ScopeKind} {node : NodeId} {f : ScopeId → Binder β}
    (hbody : ∀ suite, a.IsBody node suite → ∃ fuel frame, suite < fuel ∧
      ∀ j b, j < b.scopes.size → ∃ b₀, b.Grows b₀ ∧
        ((Binder.walk a fuel ⟨j, frame⟩ suite).run b₀).2.Grows ((f j).run b).2)
    (hf : ∀ j, Notes a t j k (f j)) :
    Notes a t i k (Binder.openScope kind node (some i) >>= f) := by
  intro b hi
  have hlt : b.scopes.size < ({ b with
      scopes := b.scopes.push ⟨kind, node, some i, [], [], []⟩ } : Bindings).scopes.size := by
    simp
  refine Bindings.Advances.opened (s := ⟨kind, node, some i, [], [], []⟩) rfl
    (fun o ho => Option.some.inj ho ▸ hi) (fun suite hsuite => ?_) (hf b.scopes.size _ hlt)
  obtain ⟨fuel, frame, hfuel, hentered⟩ := hbody suite hsuite
  obtain ⟨b₀, hbefore, hafter⟩ := hentered _ _ hlt
  exact ⟨fuel, frame, b₀, hfuel, hbefore, hafter⟩

/-- Names may be noted in a scope to stand for those of other scopes. -/
theorem modifyScope {scope : ScopeId} {change : Scope → Scope}
    (hgrows : ∀ s : Scope, s.GrowsTo (change s)) (hsymbols : ∀ s, (change s).symbols = s.symbols) :
    Notes a t i 0 (Binder.modifyScope scope change) := fun b _ =>
  .of_size (b.grows_modify scope hgrows hsymbols) Array.size_modify (Nat.le_refl _)

/-- A declaration is listed in the scope that receives it. -/
theorem run_declare (b : Bindings) (scope : ScopeId) {x : String} (hx : x ≠ "") (d : Declaration) :
    (Binder.declare scope x d).run b = ((), b.declaredAt (b.target scope x) x d) := by
  have hempty : ¬ x.isEmpty = true := by simpa using hx
  unfold Binder.declare
  rw [if_neg hempty]
  show ((Binder.targetScope scope x >>= _ : Binder Unit)).run b = _
  rw [StateT.run_bind, Bindings.run_targetScope]
  rfl

/-- A name may be declared, if a declaration of its node is allowed. -/
theorem declare {scope : ScopeId} {x : String} {d : Declaration} (hk : d.node = t → 1 ≤ k) :
    Notes a t i k (Binder.declare scope x d) := by
  intro b _
  by_cases hx : x = ""
  · subst hx
    exact .of_size (.refl b) rfl (Nat.le_add_right _ _)
  · rw [run_declare b scope hx]
    refine .of_size (b.grows_declaredAt _ x d) Array.size_modify ?_
    have hcount : (b.declaredAt (b.target scope x) x d).times t =
        b.times t + if d.node = t then 1 else 0 := by
      simp [Bindings.times, Bindings.declaredAt, List.count_cons]
    rw [hcount]
    split
    · exact Nat.add_le_add_left (hk ‹_›) _
    · exact Nat.le_add_right _ _

/-- A name node may be declared, if a declaration of the node that declares it is allowed. -/
theorem declareNode {scope : ScopeId} {node : NodeId} {d : Declaration}
    (hk : d.node = t → 1 ≤ k) : Notes a t i k (Binder.declareNode a scope node d) := by
  unfold Binder.declareNode
  split
  · exact declare hk
  · exact ret.mono (Nat.zero_le _)

end Notes

end TypeProbe
