import TypeProbe.Proofs.Scope.Walk

/-!
# Declaring names and looking them up

A walk declares a name in the scope that it stands in, and `Bindings.scopeContaining` climbs from a
node to the scope in which its names are looked up. `ParsedText.scopeContaining_bindings` says that
the two agree in every text: scopes are opened by the nodes that open one, once by each, every scope
stands where the names of its node are looked up, and every local variable is looked up where it is
declared.
-/

namespace TypeProbe

variable {a : Arena} {root x : NodeId}

namespace Bindings

variable {b : Bindings} {i j : ScopeId} {s t : Scope}

/-- The node of a scope is the one that opened it. -/
theorem getElem?_openers (hs : b.scope? i = some s) : b.openers[i]? = some s.node := by
  rw [openers, List.getElem?_map, Array.getElem?_toList, ← scope?, hs]
  rfl

/-- Scopes of one node are one scope, if no node opened two. -/
theorem scope_unique (hnodup : b.openers.Nodup) (hs : b.scope? i = some s)
    (ht : b.scope? j = some t) (hst : s.node = t.node) : i = j := by
  have hi := getElem?_openers hs
  refine (List.getElem?_inj (List.getElem?_eq_some_iff.1 hi).1 hnodup).1 ?_
  rw [hi, getElem?_openers ht, hst]

/-- A node that opened a scope opened one of the scopes. -/
theorem exists_openedBy {n : NodeId} (hn : n ∈ b.openers) : ∃ i, b.OpenedBy i n := by
  obtain ⟨s, hs, hnode⟩ := List.mem_map.1 hn
  obtain ⟨i, hi⟩ := List.mem_iff_getElem?.1 hs
  exact ⟨i, s, by rwa [Array.getElem?_toList] at hi, hnode⟩

/-- A node that opened one scope is found to have opened it. -/
theorem scopeOf?_eq {n : NodeId} (hnodup : b.openers.Nodup) (hopened : b.OpenedBy i n) :
    b.scopeOf? n = some i := by
  obtain ⟨s, hs, rfl⟩ := hopened
  obtain ⟨hlt, hget⟩ := Array.getElem?_eq_some_iff.1 hs
  refine Array.findIdx?_eq_some_iff_getElem.2 ⟨hlt, by simp [hget], fun j hj hnode => ?_⟩
  have ht := Array.getElem?_eq_some_iff.2 ⟨Nat.lt_trans hj hlt, rfl⟩
  exact Nat.ne_of_lt hj (scope_unique hnodup ht hs (eq_of_beq hnode))

end Bindings

section Whole

variable (h : a.Rooted root) (hx : ((a.kind? x).bind ScopeKind.ofNode?).isSome)
include h hx

/-- A walk that may go down far enough opens the scopes at and below a node. -/
theorem Binds.walk (fuel : Nat) {n : Nat} {C : Opened} {context : WalkContext} (hn : n < fuel)
    (hcomes : Comes a root C context.scope n) :
    Binds a root x C (a.times x n) (Binder.walk a fuel context n) fun _ => [] := by
  -- The children of a node come before it, so their walks have fuel enough, too.
  induction fuel generalizing n C context with
  | zero => exact absurd hn (Nat.not_lt_zero n)
  | succ fuel ih =>
    refine Binds.walkNode h hx (fun m hm D context hm' => ih ?_ hm') hcomes
    exact Nat.lt_of_lt_of_le hm (Nat.lt_succ_iff.1 hn)

omit hx in
/-- The scope of the module may be opened first. -/
theorem Binds.openModule : Bindings.Agrees
    ((Binder.openScope .module root none).run Bindings.empty).2 a root
    [(Bindings.moduleScope, root)] := by
  have hempty : Bindings.empty.Agrees a root [] :=
    ⟨fun i s hs => by simp [Bindings.scope?, Bindings.empty] at hs,
      fun i s hs => by simp [Bindings.scope?, Bindings.empty] at hs, by simp⟩
  refine hempty.push (s := ⟨.module, root, none, [], [], []⟩) ⟨.refl, ?_, ?_, ?_⟩
    (.inl ⟨rfl, rfl, rfl⟩)
  · rw [(h.kind_root root).2 rfl]
    rfl
  · simp
  · simp [Named.get?]

/-- The bindings of a tree agree with it, and the nodes of the tree that open scopes open one
each. -/
theorem Bindings.ofTree_agrees : (Bindings.ofTree a root).Agrees a root [(moduleScope, root)] ∧
    (Bindings.ofTree a root).openers.count x = a.times x root := by
  obtain ⟨form, hform, hmodule⟩ := Arena.form?_of_kind? ((h.kind_root root).2 rfl)
  cases form <;> cases hmodule
  have hwalk : Binds a root x [(moduleScope, root)] ((a.children root).map (a.times x)).sum
      (do for child in a.children root do Binder.walk a (a.size + 1) ⟨moduleScope, none⟩ child)
      fun _ => [] := by
    refine Binds.forIn fun child hchild => ⟨_, rfl, ?_⟩
    have hlt := Nat.lt_succ_of_lt (Nat.lt_trans (h.lt root child hchild)
      (Arena.lt_size_of_form? hform))
    refine Binds.walk h hx _ hlt fun _ => ?_
    rw [Arena.children_of_form? hform] at hchild
    exact .inside h .refl hform hchild List.mem_cons_self (by simp)
  obtain ⟨hagrees, hcount⟩ := hwalk _ (Binds.openModule h)
  refine ⟨hagrees, hcount.trans ?_⟩
  rw [h.times_eq]
  refine congrArg (· + _) ?_
  show List.count x [root] = _
  rw [List.count_singleton]
  simp only [beq_iff_eq]

end Whole

section Tree

variable (h : a.Rooted root)
include h

/-- The bindings of a tree agree with it, and the scope of the module is that of the root. -/
theorem Bindings.agrees_ofTree :
    (Bindings.ofTree a root).Agrees a root [(moduleScope, root)] := by
  refine (ofTree_agrees (x := root) h ?_).1
  rw [(h.kind_root root).2 rfl]
  rfl

/-- The nodes that opened the scopes are those of the tree that open one. -/
theorem Bindings.mem_openers_ofTree {n : NodeId} : n ∈ (Bindings.ofTree a root).openers ↔
    a.Reaches root n ∧ ((a.kind? n).bind ScopeKind.ofNode?).isSome := by
  constructor
  · intro hn
    obtain ⟨i, s, hs, rfl⟩ := exists_openedBy hn
    have hfits := (agrees_ofTree h).fits i s hs
    exact ⟨hfits.reaches, hfits.kind ▸ rfl⟩
  · rintro ⟨hreaches, hopens⟩
    rw [← List.count_pos_iff, (ofTree_agrees h hopens).2, Arena.times_eq_one hreaches]
    exact Nat.one_pos

/-- No node of a tree opens two scopes. -/
theorem Bindings.nodup_openers_ofTree : (Bindings.ofTree a root).openers.Nodup := by
  refine List.nodup_iff_count_le_one.2 fun x => ?_
  by_cases hx : x ∈ (ofTree a root).openers
  · rw [(ofTree_agrees h ((mem_openers_ofTree h).1 hx).2).2]
    exact Arena.times_le_one
  · rw [List.count_eq_zero_of_not_mem hx]
    exact Nat.zero_le 1

/-- Every scope of a tree but that of the module stands where the names of its node are looked
up. -/
theorem Bindings.parent_ofTree {i : ScopeId} {s : Scope}
    (hs : (Bindings.ofTree a root).scope? i = some s) (hi : i ≠ moduleScope) :
    s.parent = some ((Bindings.ofTree a root).scopeContaining a s.node) := by
  rcases (agrees_ofTree h).placed i s hs with ⟨hfirst, -⟩ | ⟨outer, n, hparent, houter, henc⟩
  · exact absurd hfirst hi
  · rw [hparent, henc.scopeContaining_eq h (scopeOf?_eq (nodup_openers_ofTree h) houter)]

/-- The scope of the module is that of the root, and stands in no other one. -/
theorem Bindings.exists_moduleScope : ∃ s, (Bindings.ofTree a root).scope? moduleScope = some s ∧
    s.node = root ∧ s.parent = none := by
  obtain ⟨s, hs, hnode⟩ := (agrees_ofTree h).known _ List.mem_cons_self
  refine ⟨s, hs, hnode, ?_⟩
  rcases (agrees_ofTree h).placed _ s hs with ⟨-, -, hparent⟩ | ⟨outer, n, -, -, henc⟩
  · exact hparent
  · -- The root is part of nothing, so its names belong to no other node's scope.
    obtain ⟨q, hq⟩ := henc.exists_parent h
    rw [hnode, h.free] at hq
    cases hq

end Tree

/-- In every text the scopes are opened by the nodes that open scopes, once by each, every scope but
that of the module stands where the names of its node are looked up, and every local variable is
looked up where it is declared. -/
theorem ParsedText.scopeContaining_bindings (text : String) :
    let p := ofText text
    let b := Bindings.ofTree p.arena p.root
    (∀ i j s t, b.scope? i = some s → b.scope? j = some t → s.node = t.node → i = j) ∧
      (∀ n kind, (∃ i s, b.scope? i = some s ∧ s.node = n ∧ s.kind = kind) ↔
        p.arena.Reaches p.root n ∧ (p.arena.kind? n).bind ScopeKind.ofNode? = some kind) ∧
      (∃ s, b.scope? Bindings.moduleScope = some s ∧ s.node = p.root ∧ s.parent = none) ∧
      (∀ i s, b.scope? i = some s → i ≠ Bindings.moduleScope →
        s.parent = some (b.scopeContaining p.arena s.node)) ∧
      (∀ i s name ds d, b.scope? i = some s → s.symbols.get? name = some ds → d ∈ ds →
        d.IsLocal p.arena p.root name → b.scopeContaining p.arena d.node = i) := by
  intro p b
  have h := rooted_ofText text
  have hagrees : b.Agrees p.arena p.root _ := Bindings.agrees_ofTree h
  have hnodup : b.openers.Nodup := Bindings.nodup_openers_ofTree h
  refine ⟨fun i j s t => Bindings.scope_unique hnodup, fun n kind => ⟨?_, ?_⟩,
    Bindings.exists_moduleScope h, fun i s hs hi => Bindings.parent_ofTree h hs hi,
    fun i s name ds d hs hds hd hlocal => ?_⟩
  · rintro ⟨i, s, hs, rfl, rfl⟩
    exact ⟨(hagrees.fits i s hs).reaches, (hagrees.fits i s hs).kind⟩
  · rintro ⟨hreaches, hkind⟩
    have hopens : ((p.arena.kind? n).bind ScopeKind.ofNode?).isSome := hkind ▸ rfl
    have hmem : n ∈ b.openers := (Bindings.mem_openers_ofTree h).2 ⟨hreaches, hopens⟩
    obtain ⟨i, s, hs, rfl⟩ := Bindings.exists_openedBy hmem
    exact ⟨i, s, hs, rfl, Option.some.inj ((hagrees.fits i s hs).kind.symm.trans hkind)⟩
  · have henc : p.arena.Encloses s.node d.node := by
      refine (hagrees.fits i s hs).declared name d ?_ hlocal
      rwa [hds]
    exact henc.scopeContaining_eq h (Bindings.scopeOf?_eq hnodup ⟨s, hs, rfl⟩)

/-- What the first clause of a comprehension goes through is looked up around the comprehension, and
what it collects inside. -/
example :
    let p := ParsedText.ofText "[x for x in y]\n"
    let b := Bindings.ofTree p.arena p.root
    b.scopeContaining p.arena 2 = 0 ∧ b.scopeContaining p.arena 0 = 1 := by cbv

end TypeProbe
