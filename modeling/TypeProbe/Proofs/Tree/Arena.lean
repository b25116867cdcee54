import TypeProbe.Tree.Arena

/-!
# What becomes of the nodes of an arena

`Arena.add` gives a new node the next id and makes it the parent of its children; everything else
about the nodes that were there stays (`form?_add`, `range?_add`, `parent?_add`). `Arena.widened` is
the change that parentheses make to the expression between them.
-/

namespace TypeProbe

/-- A note that a construct stands between parentheses leaves its children. -/
@[simp] theorem Form.children_parenthesize (form : Form) :
    form.parenthesize.children = form.children := by
  cases form <;> rfl

/-- A note that a construct stands between parentheses leaves its kind. -/
@[simp] theorem Form.kind_parenthesize (form : Form) : form.parenthesize.kind = form.kind := by
  cases form <;> rfl

/-- Only the errors become errors, and they do not change. -/
theorem Form.parenthesize_eq_error {form : Form} {category : ErrorCategory}
    {child : Option NodeId} :
    form.parenthesize = .error category child ↔ form = .error category child := by
  cases form
  case binaryOperation => exact ⟨nofun, nofun⟩
  case tuple => exact ⟨nofun, nofun⟩
  all_goals exact Iff.rfl

namespace Arena

variable {a : Arena} {i j : NodeId}

/-- The node of an id that has been given out. -/
theorem get?_eq_some_iff {n : Node} : a.get? i = some n ↔ ∃ h : i < a.size, a.nodes[i] = n :=
  Array.getElem?_eq_some_iff

/-- There is no node at an id that has not been given out. -/
theorem get?_eq_none_iff : a.get? i = none ↔ a.size ≤ i := Array.getElem?_eq_none_iff

/-- The children of a node are those of its form. -/
theorem children_eq (a : Arena) (i : NodeId) :
    a.children i = ((a.form? i).map Form.children).getD [] := by
  unfold children form?
  cases a.get? i <;> rfl

/-- The children of a node that has a form are those of the form. -/
theorem children_of_form? {form : Form} (h : a.form? i = some form) :
    a.children i = form.children := by
  rw [children_eq, h]
  rfl

/-- A child of a node's form is a child of the node. -/
theorem mem_children_of_form? {form : Form} (h : a.form? i = some form) (hj : j ∈ form.children) :
    j ∈ a.children i := by
  rwa [children_of_form? h]

/-- A node with a child has a form that lists it. -/
theorem exists_form_of_mem_children (h : j ∈ a.children i) :
    ∃ form, a.form? i = some form ∧ j ∈ form.children := by
  cases hform : a.form? i with
  | none => simp [children_eq, hform] at h
  | some form => exact ⟨form, rfl, children_of_form? hform ▸ h⟩

/-- The kind of a node is that of its form. -/
theorem kind?_eq (a : Arena) (i : NodeId) : a.kind? i = (a.form? i).map Form.kind := by
  unfold kind? form?
  cases a.get? i <;> rfl

/-- The kind of a node that has a form is that of the form. -/
theorem kind?_of_form? {form : Form} (h : a.form? i = some form) : a.kind? i = some form.kind := by
  rw [kind?_eq, h]
  rfl

/-- A node that has a kind has a form of it. -/
theorem form?_of_kind? {kind : NodeKind} (h : a.kind? i = some kind) :
    ∃ form, a.form? i = some form ∧ form.kind = kind :=
  Option.map_eq_some_iff.1 ((kind?_eq a i).symm.trans h)

/-- A node that has a form has an id below the size. -/
theorem lt_size_of_form? {form : Form} (h : a.form? i = some form) : i < a.size := by
  obtain ⟨n, hn, -⟩ := Option.map_eq_some_iff.1 h
  exact (get?_eq_some_iff.1 hn).1

/-- A node that has a kind has an id below the size. -/
theorem lt_size_of_kind? {kind : NodeKind} (h : a.kind? i = some kind) : i < a.size := by
  obtain ⟨n, hn, -⟩ := Option.map_eq_some_iff.1 h
  exact (get?_eq_some_iff.1 hn).1

/-- A node that has children has an id below the size. -/
theorem lt_size_of_mem_children (h : j ∈ a.children i) : i < a.size := by
  obtain ⟨form, hform, -⟩ := exists_form_of_mem_children h
  exact lt_size_of_form? hform

/-- A node that has a parent has an id below the size. -/
theorem lt_size_of_parent? (h : a.parent? i = some j) : i < a.size := by
  obtain ⟨n, hn, -⟩ := Option.bind_eq_some_iff.1 h
  exact (get?_eq_some_iff.1 hn).1

/-! ## Changes of single nodes -/

@[simp] theorem size_modify (a : Arena) (i : NodeId) (change : Node → Node) :
    (a.modify i change).size = a.size := Array.size_modify

/-- A change of a node leaves the others. -/
theorem get?_modify (a : Arena) (i j : NodeId) (change : Node → Node) :
    (a.modify i change).get? j = if i = j then (a.get? j).map change else a.get? j :=
  Array.getElem?_modify

/-- A change that does not show the second time may be made to a node many times. -/
theorem get?_foldl_modify {change : Node → Node} (hchange : ∀ n, change (change n) = change n)
    (ids : List NodeId) (a : Arena) (j : NodeId) :
    (ids.foldl (fun a i => a.modify i change) a).get? j =
      if j ∈ ids then (a.get? j).map change else a.get? j := by
  induction ids generalizing a with
  | nil => simp
  | cons i ids ih =>
    rw [List.foldl_cons, ih, get?_modify]
    by_cases hij : i = j
    · subst hij
      simp only [if_true, List.mem_cons_self, Option.map_map]
      rw [show change ∘ change = change from funext hchange, ite_self]
    · simp [hij, Ne.symm hij]

/-- Changes of single nodes leave their number. -/
theorem size_foldl_modify {change : Node → Node} (ids : List NodeId) (a : Arena) :
    (ids.foldl (fun a i => a.modify i change) a).size = a.size := by
  induction ids generalizing a with
  | nil => rfl
  | cons i ids ih => rw [List.foldl_cons, ih, size_modify]

/-- The nodes come after their children. -/
def ChildrenFirst (a : Arena) : Prop := ∀ i, ∀ c ∈ a.children i, c < i

/-! ## A new node -/

section Add

variable (a : Arena) (start stop : Nat) (form : Form)

/-- The nodes after one is added. -/
theorem get?_add (j : NodeId) : (a.add start stop form).2.get? j =
    if j = a.size then
      some ⟨a.rangeOver (TextRange.ofBounds start (max stop start)) form.children, none, form⟩
    else if j ∈ form.children then
      (a.get? j).map fun node => { node with parent := some a.size }
    else a.get? j := by
  have hsize := @size_foldl_modify (fun node => { node with parent := some a.size }) form.children a
  have hget := @get?_foldl_modify (fun node => { node with parent := some a.size })
    (fun _ => rfl) form.children a j
  simp only [add, get?, size] at hsize hget ⊢
  rw [Array.getElem?_push, ← hget, hsize]
  rfl

@[simp] theorem size_add : (a.add start stop form).2.size = a.size + 1 := by
  have hsize := @size_foldl_modify (fun node => { node with parent := some a.size }) form.children a
  simp only [add, size, Array.size_push] at hsize ⊢
  rw [hsize]

/-- The forms after a node is added. -/
theorem form?_add (j : NodeId) :
    (a.add start stop form).2.form? j = if j = a.size then some form else a.form? j := by
  unfold form?
  rw [get?_add]
  split
  · rfl
  · split
    · cases a.get? j <;> rfl
    · rfl

/-- The kinds after a node is added. -/
theorem kind?_add (j : NodeId) :
    (a.add start stop form).2.kind? j = if j = a.size then some form.kind else a.kind? j := by
  rw [kind?_eq, form?_add, kind?_eq]
  split <;> rfl

/-- The children after a node is added. -/
theorem children_add (j : NodeId) :
    (a.add start stop form).2.children j = if j = a.size then form.children else a.children j := by
  rw [children_eq, form?_add, children_eq]
  split <;> rfl

/-- The ranges after a node is added. -/
theorem range?_add (j : NodeId) : (a.add start stop form).2.range? j =
    if j = a.size then
      some (a.rangeOver (TextRange.ofBounds start (max stop start)) form.children)
    else a.range? j := by
  unfold range?
  rw [get?_add]
  split
  · rfl
  · split
    · cases a.get? j <;> rfl
    · rfl

/-- The parents after a node is added. -/
theorem parent?_add (j : NodeId) : (a.add start stop form).2.parent? j =
    if j ∈ form.children ∧ j < a.size then some a.size else a.parent? j := by
  unfold parent?
  rw [get?_add]
  by_cases hj : j = a.size
  · have hnone : a.get? j = none := get?_eq_none_iff.2 (Nat.le_of_eq hj.symm)
    simp [hj, hj ▸ hnone]
  · by_cases hmem : j ∈ form.children
    · rcases Nat.lt_or_ge j a.size with hlt | hge
      · have hsome := get?_eq_some_iff.2 ⟨hlt, rfl⟩
        simp [hj, hmem, hlt, hsome]
      · simp [hj, hmem, Nat.not_lt.2 hge, get?_eq_none_iff.2 hge]
    · simp [hj, hmem]

end Add

/-! ## Parentheses around a node -/

/-- The arena in which a node is widened and noted to stand between parentheses. -/
def widened (a : Arena) (i : NodeId) (start stop : Nat) : Arena :=
  (a.extendRange i start stop).modify i fun n => { n with form := n.form.parenthesize }

section Widened

variable (a : Arena) (i : NodeId) (start stop : Nat)

/-- The nodes after one is widened. -/
theorem get?_widened (j : NodeId) : (a.widened i start stop).get? j =
    if i = j then
      (a.get? j).map fun n =>
        { n with
          range := TextRange.ofBounds (min n.range.start start) (max n.range.stop stop)
          form := n.form.parenthesize }
    else a.get? j := by
  simp only [widened, extendRange, get?_modify]
  split
  · rw [Option.map_map]
    rfl
  · rfl

@[simp] theorem size_widened : (a.widened i start stop).size = a.size := by
  simp only [widened, extendRange, size_modify]

@[simp] theorem parent?_widened (j : NodeId) :
    (a.widened i start stop).parent? j = a.parent? j := by
  unfold parent?
  rw [get?_widened]
  split
  · cases a.get? j <;> rfl
  · rfl

@[simp] theorem kind?_widened (j : NodeId) : (a.widened i start stop).kind? j = a.kind? j := by
  unfold kind?
  rw [get?_widened]
  split
  · cases a.get? j with
    | none => rfl
    | some n => exact congrArg some (Form.kind_parenthesize n.form)
  · rfl

@[simp] theorem children_widened (j : NodeId) :
    (a.widened i start stop).children j = a.children j := by
  unfold children
  rw [get?_widened]
  by_cases h : i = j
  · cases a.get? j with
    | none => rw [if_pos h]; rfl
    | some n => rw [if_pos h]; exact Form.children_parenthesize n.form
  · rw [if_neg h]

/-- Error nodes stay what they are when a node is widened. -/
theorem form?_widened_error (j : NodeId) (category : ErrorCategory) (child : Option NodeId) :
    (a.widened i start stop).form? j = some (.error category child) ↔
      a.form? j = some (.error category child) := by
  unfold form?
  rw [get?_widened]
  split
  · cases a.get? j with
    | none => rfl
    | some n =>
      exact Option.some_inj.trans (Form.parenthesize_eq_error.trans Option.some_inj.symm)
  · rfl

/-- The ranges after a node is widened. -/
theorem range?_widened (j : NodeId) : (a.widened i start stop).range? j =
    if i = j then
      (a.range? j).map fun r => TextRange.ofBounds (min r.start start) (max r.stop stop)
    else a.range? j := by
  unfold range?
  rw [get?_widened]
  split
  · rw [Option.map_map, Option.map_map]
    rfl
  · rfl

end Widened

end Arena

end TypeProbe
