import TypeProbe.Proofs.Tree.Rooted
import TypeProbe.Scope.Basic

/-!
# Which node's scope holds the names of a node

`Arena.Encloses a owner n` says from the top down that the names of `n` belong to the scope that
`owner` opens: a construct takes some of its parts into its scope (`Form.inside`) and leaves others
in the scope around it (`Form.outside`), and a comprehension leaves outside what its first clause
goes through. `Encloses.scopeContaining_eq` shows that climbing from the node finds this scope.
-/

namespace TypeProbe

namespace Form

/-- The parts of a construct whose names belong to the scope that it opens. -/
def inside : Form → List NodeId
  | .function _ _ _ _ _ body => [body]
  | .classDef _ _ _ body => [body]
  | .lambda _ expression => [expression]
  | .comprehension expression clauses => expression :: clauses
  | .module statements => statements
  | _ => []

/-- The parts of a construct whose names belong to the scope around it. Titles of definitions and
of parameters are not among them. -/
def outside : Form → List NodeId
  | .function decorators _ _ parameters returnHint _ =>
    decorators ++ parameters ++ returnHint.toList
  | .classDef decorators _ arguments _ => decorators ++ arguments
  | .lambda parameters _ => parameters
  | .comprehension _ _ => []
  | .module _ => []
  | .parameter _ _ hint defaultValue => hint.toList ++ defaultValue.toList
  | form => form.children

variable {form : Form} {n : NodeId}

/-- What a construct takes inside is a part of it. -/
theorem inside_subset_children : form.inside ⊆ form.children := by
  cases form <;> simp [inside, children, List.subset_def]

/-- What a construct leaves outside is a part of it. -/
theorem outside_subset_children : form.outside ⊆ form.children := by
  cases form <;> simp +contextual [outside, children, List.subset_def, or_imp]

/-- What a construct takes inside is not left outside. -/
theorem notMem_outside (hnodup : form.children.Nodup) (hn : n ∈ form.inside) :
    n ∉ form.outside := by
  cases form with
  | classDef | function | lambda =>
    simp only [inside, List.mem_singleton] at hn
    grind [outside, children]
  | comprehension | module => exact List.not_mem_nil
  | _ => cases hn

end Form

namespace Arena

/-- A node is what the first clause of a comprehension goes through. -/
def IsFirstIterable (a : Arena) (n : NodeId) : Prop :=
  ∃ clause isAsync target, a.form? clause = some (.comprehensionFor isAsync target n) ∧
    Bindings.isFirstClause a clause = true

/-- The names of a node belong to the scope that the owner opens. -/
inductive Encloses (a : Arena) (owner : NodeId) : NodeId → Prop
  /-- The owner takes the node inside. -/
  | inside {form : Form} {n : NodeId} (hform : a.form? owner = some form) (hn : n ∈ form.inside) :
    Encloses a owner n
  /-- The node is part of a construct that leaves it outside. -/
  | outside {p : NodeId} {form : Form} {n : NodeId} (hform : a.form? p = some form)
    (hn : n ∈ form.outside) (hfirst : ¬ a.IsFirstIterable n) (hp : Encloses a owner p) :
    Encloses a owner n
  /-- The first clause of a comprehension goes through the node. -/
  | iterable {p expression clause target n : NodeId} {clauses : List NodeId} {isAsync : Bool}
    (hform : a.form? p = some (.comprehension expression (clause :: clauses)))
    (hclause : a.form? clause = some (.comprehensionFor isAsync target n))
    (hp : Encloses a owner p) : Encloses a owner n

variable {a : Arena} {root owner p n : NodeId} {form : Form}

/-- A node is the title of a parameter. -/
def IsParameterTitle (a : Arena) (n : NodeId) : Prop :=
  ∃ p category hint defaultValue, a.form? p = some (.parameter category (some n) hint defaultValue)

namespace Rooted

variable (h : a.Rooted root)
include h

/-- Two forms that have a child in common are of one node. -/
theorem form_unique {m : NodeId} {form' : Form} (hform : a.form? p = some form)
    (hn : n ∈ form.children) (hform' : a.form? m = some form') (hn' : n ∈ form'.children) :
    p = m ∧ form = form' := by
  obtain rfl := h.parent_unique (mem_children_of_form? hform hn) (mem_children_of_form? hform' hn')
  exact ⟨rfl, Option.some.inj (hform.symm.trans hform')⟩

/-- The parts of a form are all different. -/
theorem nodup_children (hform : a.form? p = some form) : form.children.Nodup := by
  have hnodup := h.nodup p
  rwa [children_of_form? hform] at hnodup

/-- A clause is the first one of a comprehension just if it is the first one of its parent. -/
theorem isFirstClause_iff {clause : NodeId} :
    Bindings.isFirstClause a clause = true ↔ ∃ p expression clauses,
      a.form? p = some (.comprehension expression (clause :: clauses)) := by
  unfold Bindings.isFirstClause
  constructor
  · intro hfirst
    split at hfirst
    · rename_i expression clauses hbind
      obtain ⟨p, -, hform⟩ := Option.bind_eq_some_iff.1 hbind
      obtain ⟨others, rfl⟩ := List.head?_eq_some_iff.1 (by simpa using hfirst)
      exact ⟨p, expression, others, hform⟩
    · cases hfirst
  · rintro ⟨p, expression, clauses, hform⟩
    rw [h.parent?_of_form? hform (by simp [Form.children])]
    simp [hform]

/-- What is part of another construct than a clause of a comprehension is no first iterable. -/
theorem not_isFirstIterable (hform : a.form? p = some form) (hn : n ∈ form.children)
    (hne : ∀ isAsync target, form ≠ .comprehensionFor isAsync target n) :
    ¬ a.IsFirstIterable n := by
  rintro ⟨clause, isAsync, target, hclause, -⟩
  obtain ⟨-, rfl⟩ := h.form_unique hform hn hclause (by simp [Form.children])
  exact hne isAsync target rfl

end Rooted

/-! ## Climbing -/

/-- A part is no name of a parameter of which the node is not the title. -/
theorem isParameterName_eq_false {node : NodeId} (hnode : ¬ a.IsParameterTitle node)
    (parameters : List NodeId) (part : NodeId) :
    Bindings.isParameterName a parameters part node = false := by
  unfold Bindings.isParameterName
  split
  · rename_i category title hint defaultValue hform
    have hne : title ≠ node := fun heq => hnode ⟨part, category, hint, defaultValue, heq ▸ hform⟩
    simp [hne]
  · simp

/-- Climbing stops where a construct takes the part inside. -/
theorem scopeFrom_inside {b : Bindings} {i : ScopeId} {node part : NodeId}
    (hi : b.scopeOf? p = some i) (hform : a.form? p = some form) (hpart : part ∈ form.inside)
    (fuel : Nat) : b.scopeFrom a node (fuel + 1) part false (some p) = i := by
  obtain ⟨n, hn, rfl⟩ := Option.map_eq_some_iff.1 hform
  simp only [Bindings.scopeFrom, hn]
  cases hcase : n.form <;> simp_all [Form.inside]

/-- Climbing passes a construct that leaves the part outside. -/
theorem scopeFrom_outside {b : Bindings} {node part : NodeId} (hnode : ¬ a.IsParameterTitle node)
    (hform : a.form? p = some form) (hnodup : form.children.Nodup) (hpart : part ∈ form.outside)
    (hfirst : ¬ a.IsFirstIterable part) (fuel : Nat) :
    b.scopeFrom a node (fuel + 1) part false (some p) =
      b.scopeFrom a node fuel p false (a.parent? p) := by
  have htitle := isParameterName_eq_false hnode
  obtain ⟨n, hn, rfl⟩ := Option.map_eq_some_iff.1 hform
  simp only [Bindings.scopeFrom, hn, Arena.parent?]
  have hbody : ∀ body ∈ n.form.inside, (body == part) = false := fun body hbody =>
    beq_false_of_ne fun heq => Form.notMem_outside hnodup hbody (heq ▸ hpart)
  -- Constructs that open a scope are passed since the part is none that they take inside.
  cases hcase : n.form with
  | classDef decorators title arguments body =>
    simp [hbody body (by simp [hcase, Form.inside])]
  | function decorators isAsync title parameters returnHint body =>
    simp [hbody body (by simp [hcase, Form.inside]), htitle]
  | lambda parameters body => simp [hbody body (by simp [hcase, Form.inside]), htitle]
  | comprehension expression clauses =>
    rw [hcase] at hpart
    cases hpart
  | module statements =>
    rw [hcase] at hpart
    cases hpart
  | comprehensionFor isAsync target iterable =>
    have hpass : (iterable == part && Bindings.isFirstClause a p) = false := by
      rw [Bool.and_eq_false_imp]
      intro heq
      obtain rfl := eq_of_beq heq
      exact Bool.eq_false_iff.2 fun hclause =>
        hfirst ⟨p, isAsync, target, hform.trans (congrArg some hcase), hclause⟩
    simp [hpass]
  | _ => simp

/-- What the first clause of a comprehension goes through passes the clause. -/
theorem scopeFrom_iterable {b : Bindings} {node part target : NodeId} {isAsync : Bool}
    (hform : a.form? p = some (.comprehensionFor isAsync target part))
    (hfirst : Bindings.isFirstClause a p = true) (fuel : Nat) :
    b.scopeFrom a node (fuel + 1) part false (some p) =
      b.scopeFrom a node fuel p true (a.parent? p) := by
  obtain ⟨n, hn, hcase⟩ := Option.map_eq_some_iff.1 hform
  simp [Bindings.scopeFrom, hn, hcase, hfirst, Arena.parent?]

/-- What has passed the first clause of a comprehension passes the comprehension. -/
theorem scopeFrom_comprehension {b : Bindings} {node part expression : NodeId}
    {clauses : List NodeId} (hform : a.form? p = some (.comprehension expression clauses))
    (fuel : Nat) :
    b.scopeFrom a node (fuel + 1) part true (some p) =
      b.scopeFrom a node fuel p false (a.parent? p) := by
  obtain ⟨n, hn, hcase⟩ := Option.map_eq_some_iff.1 hform
  simp [Bindings.scopeFrom, hn, hcase, Arena.parent?]

namespace Encloses

variable (h : a.Rooted root)
include h

/-- A node whose names belong to a scope is part of another one. -/
theorem exists_parent (henc : a.Encloses owner n) : ∃ p, a.parent? n = some p := by
  cases henc with
  | inside hform hn => exact ⟨_, h.parent?_of_form? hform (Form.inside_subset_children hn)⟩
  | outside hform hn => exact ⟨_, h.parent?_of_form? hform (Form.outside_subset_children hn)⟩
  | iterable hform hclause =>
    exact ⟨_, h.parent?_of_form? hclause (List.mem_cons_of_mem _ List.mem_cons_self)⟩

/-- The title of a parameter stands neither inside nor outside of a construct. -/
theorem not_isParameterTitle (henc : a.Encloses owner n) : ¬ a.IsParameterTitle n := by
  rintro ⟨q, category, hint, defaultValue, hq⟩
  have htitle : n ∈ (Form.parameter category (some n) hint defaultValue).children := by
    simp [Form.children]
  cases henc with
  | inside hform hn =>
    obtain ⟨-, rfl⟩ := h.form_unique hform (Form.inside_subset_children hn) hq htitle
    cases hn
  | outside hform hn =>
    obtain ⟨-, rfl⟩ := h.form_unique hform (Form.outside_subset_children hn) hq htitle
    have hnodup : (n :: (hint.toList ++ defaultValue.toList)).Nodup := h.nodup_children hform
    exact (List.nodup_cons.1 hnodup).1 hn
  | iterable hform hclause =>
    obtain ⟨-, heq⟩ := h.form_unique hclause (by simp [Form.children]) hq htitle
    cases heq

/-- Climbing from a node, or from a part around it, finds the scope that its names belong to. -/
theorem scopeFrom_eq {b : Bindings} {i : ScopeId} {node part : NodeId}
    (hnode : ¬ a.IsParameterTitle node) (hi : b.scopeOf? owner = some i)
    (henc : a.Encloses owner part) (fuel : Nat) (hfuel : a.size ≤ fuel + part) :
    b.scopeFrom a node fuel part false (a.parent? part) = i := by
  -- Every step comes to a later node, so there is fuel for it.
  have hstep : ∀ {p part : Nat} {form}, a.form? p = some form → part ∈ form.children → ∀ fuel,
      a.size ≤ fuel + part → ∃ rest, fuel = rest + 1 ∧ a.size ≤ rest + p := by
    intro p part form hform hpart fuel hfuel
    have hlt : part < p := h.lt p part (mem_children_of_form? hform hpart)
    have hsize : p < a.size := lt_size_of_form? hform
    exact ⟨fuel - 1, by omega, by omega⟩
  induction henc generalizing fuel with
  | inside hform hpart =>
    have hchild := Form.inside_subset_children hpart
    obtain ⟨rest, rfl, -⟩ := hstep hform hchild fuel hfuel
    rw [h.parent?_of_form? hform hchild]
    exact scopeFrom_inside hi hform hpart rest
  | outside hform hpart hfirst _ ih =>
    have hchild := Form.outside_subset_children hpart
    obtain ⟨rest, rfl, hrest⟩ := hstep hform hchild fuel hfuel
    rw [h.parent?_of_form? hform hchild,
      scopeFrom_outside hnode hform (h.nodup_children hform) hpart hfirst]
    exact ih rest hrest
  | @iterable p expression clause target part clauses isAsync hform hclause _ ih =>
    have hpart : part ∈ (Form.comprehensionFor isAsync target part).children := by
      simp [Form.children]
    have hchild : clause ∈ (Form.comprehension expression (clause :: clauses)).children := by
      simp [Form.children]
    obtain ⟨rest', rfl, hrest'⟩ := hstep hclause hpart fuel hfuel
    obtain ⟨rest, rfl, hrest⟩ := hstep hform hchild rest' hrest'
    have hfirst := h.isFirstClause_iff.2 ⟨p, expression, clauses, hform⟩
    rw [h.parent?_of_form? hclause hpart, scopeFrom_iterable hclause hfirst,
      h.parent?_of_form? hform hchild, scopeFrom_comprehension hform]
    exact ih rest hrest

/-- The scope in which the names of a node are looked up is that of the node that encloses it. -/
theorem scopeContaining_eq {b : Bindings} {i : ScopeId} (henc : a.Encloses owner n)
    (hi : b.scopeOf? owner = some i) : b.scopeContaining a n = i :=
  henc.scopeFrom_eq h (henc.not_isParameterTitle h) hi _ (by omega)

end Encloses

end Arena

end TypeProbe
