import TypeProbe.Proofs.Scope.Enclosing

/-!
# The function that a node belongs to

The body of a function runs when the function is called; all else that a definition is made of, its
decorators, default values and type hints, is worked out where the definition stands. So a node
belongs to the innermost function in whose body it is found (`Arena.IsInnermost`), if there is one,
and on the way down from a construct to its parts this changes only where a body is entered
(`Arena.Rooted.owns_part`).
-/

namespace TypeProbe

/-- The part of a construct that runs when the function is called that it makes: the suite of a
function, or the expression of one without a name. -/
def Form.body? : Form → Option NodeId
  | .function _ _ _ _ _ body => some body
  | .lambda _ expression => some expression
  | _ => none

/-- The body is one of the children. -/
theorem Form.mem_children_of_body? {form : Form} {body : NodeId} (h : form.body? = some body) :
    body ∈ form.children := by
  cases form <;> simp_all [body?, children]

namespace Arena

/-- A node is found in the body of a function. -/
def Runs (a : Arena) (f n : NodeId) : Prop :=
  ∃ form body, a.form? f = some form ∧ form.body? = some body ∧ a.Reaches body n

/-- Of the functions in whose bodies a node is found, one is found in the bodies of all others. -/
structure IsInnermost (a : Arena) (f n : NodeId) : Prop where
  /-- The node is found in its body. -/
  runs : a.Runs f n
  /-- It is found at or below all others. -/
  within : ∀ g, a.Runs g n → a.Reaches g f

/-- A node belongs to a function, or to none. -/
def Owns (a : Arena) : Option NodeId → NodeId → Prop
  | some f, n => a.IsInnermost f n
  | none, n => ∀ f, ¬ a.Runs f n

variable {a : Arena} {root d f g n part : NodeId} {form : Form} {owner : Option NodeId}

/-- A function is above what is found in its body. -/
theorem Runs.reaches (h : a.Runs f n) : a.Reaches f n := by
  obtain ⟨form, body, hform, hbody, hn⟩ := h
  exact .head (mem_children_of_form? hform (Form.mem_children_of_body? hbody)) hn

/-- What is below a node in the body of a function is in it. -/
theorem Runs.trans (h : a.Runs f n) (hpart : a.Reaches n part) : a.Runs f part := by
  obtain ⟨form, body, hform, hbody, hn⟩ := h
  exact ⟨form, body, hform, hbody, hn.trans hpart⟩

/-- The innermost function is told by the functions in whose bodies a node is found. -/
theorem isInnermost_congr (hruns : ∀ g, a.Runs g part ↔ a.Runs g n) :
    a.IsInnermost f part ↔ a.IsInnermost f n :=
  ⟨fun h => ⟨(hruns f).1 h.runs, fun g hg => h.within g ((hruns g).2 hg)⟩,
    fun h => ⟨(hruns f).2 h.runs, fun g hg => h.within g ((hruns g).1 hg)⟩⟩

/-- What a node belongs to is told by the functions in whose bodies it is found. -/
theorem Owns.congr (h : a.Owns owner n) (hruns : ∀ g, a.Runs g part ↔ a.Runs g n) :
    a.Owns owner part := by
  cases owner with
  | none => exact fun f hf => h f ((hruns f).1 hf)
  | some f => exact (isInnermost_congr hruns).2 h

namespace Rooted

variable (h : a.Rooted root)
include h

/-- A node belongs to one function. -/
theorem innermost_unique (hf : a.IsInnermost f n) (hg : a.IsInnermost g n) : f = g :=
  Nat.le_antisymm ((hf.within g hg.runs).le h.lt) ((hg.within f hf.runs).le h.lt)

/-- A node that belongs to a function belongs to its innermost function. -/
theorem owner_eq_some (howns : a.Owns owner n) (hf : a.IsInnermost f n) : owner = some f := by
  cases owner with
  | none => exact absurd hf.runs (howns f)
  | some g => exact congrArg some (h.innermost_unique howns hf)

/-- A part of a construct is found in the bodies in which the construct is found, and if it is the
body of a function, in that, too. -/
theorem runs_part_iff (hform : a.form? d = some form) (hpart : part ∈ form.children) :
    a.Runs g part ↔ a.Runs g d ∨ g = d ∧ form.body? = some part := by
  have hchild := mem_children_of_form? hform hpart
  constructor
  · rintro ⟨other, body, hother, hbody, hreach⟩
    rcases Relation.ReflTransGen.cases_tail hreach with rfl | ⟨q, hq, hpartq⟩
    · -- The body itself is part of its function only.
      obtain ⟨rfl, rfl⟩ := h.form_unique hother (Form.mem_children_of_body? hbody) hform hpart
      exact .inr ⟨rfl, hbody⟩
    · obtain rfl := h.parent_unique hpartq hchild
      exact .inl ⟨other, body, hother, hbody, hq⟩
  · rintro (hruns | ⟨rfl, hbody⟩)
    · exact hruns.trans (.single hchild)
    · exact ⟨form, part, hform, hbody, .refl⟩

/-- A part of a construct belongs to what the construct belongs to, unless it is the body of a
function, which belongs to that. -/
theorem owns_part (hform : a.form? d = some form) (hpart : part ∈ form.children)
    (howns : a.Owns owner d) : a.Owns (if form.body? = some part then some d else owner) part := by
  split
  · rename_i hbody
    refine ⟨(h.runs_part_iff hform hpart).2 (.inr ⟨rfl, hbody⟩), fun g hg => ?_⟩
    rcases (h.runs_part_iff hform hpart).1 hg with hruns | ⟨rfl, -⟩
    · exact hruns.reaches
    · exact .refl
  · rename_i hbody
    exact howns.congr fun g => (h.runs_part_iff hform hpart).trans (or_iff_left fun h => hbody h.2)

/-- The root belongs to no function. -/
theorem owns_root : a.Owns none root := by
  rintro f ⟨form, body, hform, hbody, hreach⟩
  have hnone : ∀ p, root ∉ a.children p := fun p hp => by
    have hparent := (h.linked root p).2 hp
    rw [h.free] at hparent
    cases hparent
  rcases Relation.ReflTransGen.cases_tail hreach with rfl | ⟨p, -, hp⟩
  · exact hnone f (mem_children_of_form? hform (Form.mem_children_of_body? hbody))
  · exact hnone p hp

/-- Whatever is found below the root belongs to a function, or to none. -/
theorem exists_owns (hreach : a.Reaches root n) : ∃ owner, a.Owns owner n := by
  induction hreach with
  | refl => exact ⟨none, h.owns_root⟩
  | tail _ hchild ih =>
    obtain ⟨owner, howns⟩ := ih
    obtain ⟨form, hform, hpart⟩ := exists_form_of_mem_children hchild
    exact ⟨_, h.owns_part hform hpart howns⟩

/-- What is found in a part of a construct, but in no function within that part, belongs to what the
construct belongs to, unless the part is the body of a function. -/
theorem innermost_iff_of_outside (hform : a.form? d = some form) (hpart : part ∈ form.children)
    (hbody : form.body? ≠ some part) (hn : a.Reaches part n)
    (hnone : ∀ g, a.Reaches part g → ¬ a.Runs g n) : a.IsInnermost f n ↔ a.IsInnermost f d := by
  refine isInnermost_congr fun g => ?_
  have hpart' : a.Runs g part ↔ a.Runs g d :=
    (h.runs_part_iff hform hpart).trans (or_iff_left fun h => hbody h.2)
  refine ⟨fun hg => hpart'.1 ?_, fun hg => (hpart'.2 hg).trans hn⟩
  obtain ⟨other, body, hother, hother', hreach⟩ := hg
  -- The body in which the node is found is above the part, or else its function is in the part.
  rcases h.reaches_total hreach hn with hup | hdown
  · exact ⟨other, body, hother, hother', hup⟩
  · rcases Relation.ReflTransGen.cases_tail hdown with rfl | ⟨q, hq, hbodyq⟩
    · exact ⟨other, body, hother, hother', .refl⟩
    · obtain rfl := h.parent_unique hbodyq
        (mem_children_of_form? hother (Form.mem_children_of_body? hother'))
      exact absurd ⟨other, body, hother, hother', hreach⟩ (hnone q hq)

end Rooted

/-! ## What functions list -/

/-- Lists of functions hold a node once, in the list of the innermost function in whose body it is
found, or else, if it is in the body of none, not at all. -/
def IsListedOnce (a : Arena) (lists : NodeId → List NodeId) (n : NodeId) : Prop :=
  (∃ f, a.IsInnermost f n ∧ (lists f).count n = 1 ∧ ∀ g, n ∈ lists g → g = f) ∨
    (∀ f, ¬ a.Runs f n) ∧ ∀ f, n ∉ lists f

/-- Lists of functions hold the nodes of some kinds that belong to them. -/
structure Attributes (a : Arena) (root : NodeId) (kinds : NodeKind → Prop)
    (lists : NodeId → List NodeId) : Prop where
  /-- Every node of these kinds is listed once, or is in no function. -/
  once : ∀ n kind, a.Reaches root n → a.kind? n = some kind → kinds kind → a.IsListedOnce lists n
  /-- Nothing else is listed. -/
  only : ∀ f n, n ∈ lists f → a.Reaches root n ∧ ∃ kind, a.kind? n = some kind ∧ kinds kind
  /-- What is in a part of a construct that is not the body of a function, but in no function within
  that part, is listed by the function around the construct. -/
  around : ∀ d form part n kind, a.Reaches root d → a.form? d = some form →
    part ∈ form.children → form.body? ≠ some part → a.Reaches part n →
    (∀ g, a.Reaches part g → ¬ a.Runs g n) → a.kind? n = some kind → kinds kind →
    ∀ f, n ∈ lists f ↔ a.IsInnermost f d

/-- The kinds may be told in another way. -/
theorem Attributes.congr {kinds kinds' : NodeKind → Prop} {lists : NodeId → List NodeId}
    (h : a.Attributes root kinds lists) (hkinds : ∀ kind, kinds kind ↔ kinds' kind) :
    a.Attributes root kinds' lists := by
  obtain rfl : kinds = kinds' := funext fun kind => propext (hkinds kind)
  exact h

end Arena

end TypeProbe
