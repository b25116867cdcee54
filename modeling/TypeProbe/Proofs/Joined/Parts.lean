import TypeProbe.Proofs.Joined.Texts

/-!
# Texts within texts

A text that lies in another one (`ParsedText.LiesIn`) is read there as it is alone: its nodes are
there, further back and with greater ids, and its statements are statements of the other text. Both
parts of a joined text lie in it, and so does a text between lines without blocks
(`ParsedText.liesIn_lines`).
-/

namespace TypeProbe

/-! ## Shifts after each other -/

section Shifts

variable (bytes bytes' ids ids' : Nat)

@[simp] theorem TextRange.shift_shift (r : TextRange) :
    (r.shift bytes).shift bytes' = r.shift (bytes + bytes') :=
  congrArg (TextRange.mk · r.length) (Nat.add_assoc ..)

@[simp] theorem Token.shift_shift (t : Token) :
    (t.shift bytes).shift bytes' = t.shift (bytes + bytes') :=
  congrArg (Token.mk · t.lexeme) (t.range.shift_shift bytes bytes')

@[simp] theorem Form.shift_shift (form : Form) :
    (form.shift bytes ids).shift bytes' ids' = form.shift (bytes + bytes') (ids + ids') := by
  cases form <;> simp [Form.shift, Function.comp_def, Nat.add_assoc]

end Shifts

/-! ## Texts -/

/-- A text lies in another one, so many bytes further back, where its nodes have ids that are
greater by a number. -/
structure ParsedText.LiesIn (bytes ids : Nat) (a whole : ParsedText) : Prop where
  /-- The ids of its nodes are below that of the root. -/
  below : a.root + ids ≤ whole.root
  /-- Its statements are the statements among its nodes. -/
  statements : ∀ i < a.root,
    i + ids ∈ whole.arena.children whole.root ↔ i ∈ a.arena.children a.root
  /-- Its nodes are as they were but for the root above the statements. -/
  nodes : ∀ i < a.root, whole.arena.get? (i + ids) = (a.arena.get? i).map fun n =>
    { n.shift bytes ids with
      parent := if i ∈ a.arena.children a.root then some whole.root else n.parent.map (· + ids) }

namespace ParsedText

variable {bytes bytes' ids ids' : Nat} {a b whole : ParsedText}

/-- The root of a text is the parent of its statements. -/
theorem parent_of_statement (text : String) {i : NodeId} {n : Node} (hi : i < (ofText text).root)
    (hmem : i ∈ (ofText text).arena.children (ofText text).root)
    (hn : (ofText text).arena.get? i = some n) : n.parent = some (ofText text).root := by
  obtain ⟨hroot, harena, -⟩ := ofText_items text
  generalize (items text.toList).2.arena = a at *
  rw [hroot] at hi hmem ⊢
  rw [harena, Arena.children_add, if_pos rfl] at hmem
  rw [harena, Arena.get?_add, if_neg (Nat.ne_of_lt hi), if_pos hmem] at hn
  obtain ⟨m, -, rfl⟩ := Option.map_eq_some_iff.1 hn
  rfl

/-- The first part of a joined text lies in it. -/
theorem Joins.front_liesIn (h : Joins bytes a b whole) : LiesIn 0 0 a whole where
  below := by
    rw [h.root]
    exact Nat.le_add_right _ _
  statements i hi := by
    rw [h.statements, List.mem_append, Nat.add_zero, or_iff_left_iff_imp, List.mem_map]
    rintro ⟨j, -, rfl⟩
    exact absurd hi (Nat.not_lt.2 (Nat.le_add_left ..))
  nodes i hi := by
    rw [Nat.add_zero, h.front i hi]
    split
    · simp only [Node.shift_zero]
    · simp only [Node.shift_zero, Nat.add_zero, Option.map_id']

/-- The second part of a joined text lies in it behind the first one. -/
theorem Joins.back_liesIn {back : String} (h : Joins bytes a (ofText back) whole)
    (hids : ∀ i ∈ a.arena.children a.root, i < a.root) :
    LiesIn bytes a.root (ofText back) whole where
  below := by
    rw [h.root]
    exact Nat.le_of_eq (Nat.add_comm _ _)
  statements i hi := by
    rw [h.statements, List.mem_append, List.mem_map]
    constructor
    · rintro (hmem | ⟨j, hj, heq⟩)
      · exact absurd (hids _ hmem) (Nat.not_lt.2 (Nat.le_add_left ..))
      · rwa [← Nat.add_right_cancel heq]
    · exact fun hmem => .inr ⟨i, hmem, rfl⟩
  nodes i hi := by
    rw [h.back i hi]
    cases hn : (ofText back).arena.get? i with
    | none => rfl
    | some n =>
      rw [Option.map_some, Option.map_some]
      split
      · rename_i hmem
        have hparent := parent_of_statement back hi hmem hn
        rw [Node.shift, hparent, h.root, Option.map_some, Nat.add_comm]
      · rfl

/-- The forms of the nodes of a text that lies in another one. -/
theorem LiesIn.form? (h : LiesIn bytes ids a whole) {i : NodeId} (hi : i < a.root) :
    whole.arena.form? (i + ids) = (a.arena.form? i).map (Form.shift bytes ids) := by
  unfold Arena.form?
  rw [h.nodes i hi, Option.map_map, Option.map_map]
  rfl

/-- What lies in a part of a text lies in the text. -/
theorem LiesIn.trans (h : LiesIn bytes ids a b) (h' : LiesIn bytes' ids' b whole) :
    LiesIn (bytes + bytes') (ids + ids') a whole where
  below := by
    rw [← Nat.add_assoc]
    exact Nat.le_trans (Nat.add_le_add_right h.below ids') h'.below
  statements i hi := by
    have hlt : i + ids < b.root := Nat.lt_of_lt_of_le (Nat.add_lt_add_right hi ids) h.below
    rw [← Nat.add_assoc, h'.statements _ hlt, h.statements i hi]
  nodes i hi := by
    have hlt : i + ids < b.root := Nat.lt_of_lt_of_le (Nat.add_lt_add_right hi ids) h.below
    rw [← Nat.add_assoc, h'.nodes _ hlt, h.nodes i hi, Option.map_map]
    refine congrArg (Option.map · _) (funext fun n => ?_)
    simp only [Function.comp_apply, Node.shift, TextRange.shift_shift, Form.shift_shift,
      h.statements i hi]
    split
    · rfl
    · simp only [Option.map_map, Function.comp_def, Nat.add_assoc]

/-- A text lies in itself. -/
theorem LiesIn.refl (text : String) : LiesIn 0 0 (ofText text) (ofText text) where
  below := Nat.le_refl _
  statements _ _ := Iff.rfl
  nodes i hi := by
    rw [Nat.add_zero]
    cases hn : (ofText text).arena.get? i with
    | none => rfl
    | some n =>
      rw [Option.map_some]
      split
      · rename_i hmem
        rw [← parent_of_statement text hi hmem hn, Node.shift_zero]
      · simp

/-- The statements of whole lines are among their nodes. -/
theorem statement_lt {text : String} (h : IsPlain text.toList) :
    ∀ i ∈ (ofText text).arena.children (ofText text).root, i < (ofText text).root := by
  intro i hi
  obtain ⟨-, -, -, hids⟩ := h.items []
  obtain ⟨hroot, harena, -⟩ := ofText_items text
  rw [harena, hroot, Arena.children_add, if_pos rfl] at hi
  obtain ⟨item, hitem, heq⟩ := List.mem_filterMap.1 hi
  rw [hroot]
  exact hids i (heq ▸ hitem)

/-- Behind any number of whole lines without blocks, another such line is read as it is alone; so is
any text at the end. -/
theorem liesIn_lines {before : List String} (hbefore : ∀ k ∈ before, IsPlain k.toList)
    (l after : String) (hl : IsPlain l.toList ∨ after = "") :
    ∃ ids, LiesIn (byteLength (String.join before).toList) ids (ofText l)
      (ofText (String.join before ++ (l ++ after))) := by
  induction before with
  | nil =>
    rw [String.join_nil, String.empty_append]
    refine ⟨0, ?_⟩
    rcases hl with hl | rfl
    · exact (joins_of_isPlain hl after).front_liesIn
    · rw [String.append_empty]
      exact .refl l
  | cons k before ih =>
    obtain ⟨ids, hrest⟩ := ih fun k' hk => hbefore k' (List.mem_cons_of_mem _ hk)
    have hk := hbefore k List.mem_cons_self
    have hjoins := joins_of_isPlain hk (String.join before ++ (l ++ after))
    rw [String.join_cons, String.append_assoc, String.toList_append, byteLength_append,
      Nat.add_comm]
    exact ⟨_, hrest.trans (hjoins.back_liesIn (statement_lt hk))⟩

end ParsedText

end TypeProbe
