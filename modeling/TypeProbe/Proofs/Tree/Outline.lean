import TypeProbe.Proofs.Tree.Rooted
import TypeProbe.Tree.Printer

/-!
# Outlines

The outline of a tree lists its nodes in preorder, each with the level on which it stands: a node
comes before those below it, which are one level further in, and the trees of its children follow
each other in the order of the text. `Arena.Outline` says so of trees side by side, with no bound on
their depth.

If children come before their parents in the arena, `treeLines` goes deep enough for every node: its
lines are those of the outline (`Arena.exists_outline`). In the arena of a text, where parents and
children agree, an outline lists every node as often as it is found at or below the roots
(`Outline.count_eq`), so that of one tree lists what is found from its root, once each
(`Outline.mem_ids`, `Outline.nodup_ids`). The levels alone tell which nodes are below which: those
below a node are listed behind it up to the first one that is not further in (`Outline.cut`), and
its children are those among them that are one level further in (`Outline.tops`).
-/

namespace TypeProbe

/-- A node as an outline lists it. -/
structure OutlineEntry where
  /-- How many nodes above it are in the outline. -/
  level : Nat
  /-- The id of the node. -/
  id : NodeId
  /-- The node. -/
  node : Node

/-- The line of an entry. -/
def OutlineEntry.line (e : OutlineEntry) (lines : LineMap) : String :=
  levelIndent e.level ++ nodeLine lines e.id e.node

namespace Arena

/-- The outline of trees side by side, whose roots are on the given level. Ids of nodes that do not
exist are passed over. -/
inductive Outline (a : Arena) : Nat → List NodeId → List OutlineEntry → Prop where
  | nil {level : Nat} : Outline a level [] []
  | skip {level : Nat} {id : NodeId} {ids : List NodeId} {entries : List OutlineEntry} :
    a.get? id = none → Outline a level ids entries → Outline a level (id :: ids) entries
  | node {level : Nat} {id : NodeId} {node : Node} {ids : List NodeId}
      {below rest : List OutlineEntry} :
    a.get? id = some node → Outline a (level + 1) node.form.children below →
      Outline a level ids rest → Outline a level (id :: ids) (⟨level, id, node⟩ :: (below ++ rest))

variable {a : Arena} {level : Nat} {ids more : List NodeId} {id root x : NodeId}
  {entries further : List OutlineEntry} {e : OutlineEntry}

namespace Outline

/-- Outlines of trees side by side follow each other. -/
theorem append (h : a.Outline level ids entries) (hmore : a.Outline level more further) :
    a.Outline level (ids ++ more) (entries ++ further) := by
  induction h with
  | nil => exact hmore
  | skip hnone _ ih => exact .skip hnone (ih hmore)
  | node hsome hbelow _ _ ih =>
    rw [List.cons_append, List.cons_append, List.append_assoc]
    exact .node hsome hbelow (ih hmore)

/-- An entry holds the node with its id. -/
theorem get? (h : a.Outline level ids entries) (he : e ∈ entries) : a.get? e.id = some e.node := by
  induction h with
  | nil => cases he
  | skip _ _ ih => exact ih he
  | node hsome _ _ ihbelow ihrest =>
    rcases List.mem_cons.1 he with rfl | he
    · exact hsome
    · exact (List.mem_append.1 he).elim ihbelow ihrest

/-- No entry is further out than the roots. -/
theorem le_level (h : a.Outline level ids entries) (he : e ∈ entries) : level ≤ e.level := by
  induction h with
  | nil => cases he
  | skip _ _ ih => exact ih he
  | node _ _ _ ihbelow ihrest =>
    rcases List.mem_cons.1 he with rfl | he
    · exact Nat.le_refl _
    · exact (List.mem_append.1 he).elim (fun he => Nat.le_of_succ_le (ihbelow he)) ihrest

/-- The first entry is on the level of the roots. -/
theorem level_of_mem_head? (h : a.Outline level ids entries) (he : e ∈ entries.head?) :
    e.level = level := by
  induction h with
  | nil => cases he
  | skip _ _ ih => exact ih he
  | node => exact Option.some.inj he ▸ rfl

/-- The entries on the level of the roots are the roots, if these exist. -/
theorem tops (h : a.Outline level ids entries) (hexist : ∀ id ∈ ids, a.get? id ≠ none) :
    (entries.filter fun e => e.level = level).map OutlineEntry.id = ids := by
  induction h with
  | nil => rfl
  | skip hnone => exact absurd hnone (hexist _ List.mem_cons_self)
  | @node level id node ids below rest _ hbelow _ _ ih =>
    -- What is below the first root is further in than the roots.
    have hdeep : below.filter (fun e => e.level = level) = [] := List.filter_eq_nil_iff.2
      fun e he => by simpa using (Nat.ne_of_lt (hbelow.le_level he)).symm
    rw [List.filter_cons_of_pos (by simp), List.filter_append, hdeep, List.nil_append,
      List.map_cons, ih fun id hid => hexist id (List.mem_cons_of_mem _ hid)]

/-- Behind an entry stands the outline of what is below its node, and what follows is not further in
than the entry. -/
theorem cut (h : a.Outline level ids entries) (he : e ∈ entries) :
    ∃ before below after, entries = before ++ e :: (below ++ after) ∧
      a.Outline (e.level + 1) e.node.form.children below ∧
      ∀ f ∈ after.head?, f.level ≤ e.level := by
  induction h with
  | nil => cases he
  | skip _ _ ih => exact ih he
  | @node level id node ids below rest _ hbelow hrest ihbelow ihrest =>
    rcases List.mem_cons.1 he with rfl | he
    · exact ⟨[], below, rest, rfl, hbelow, fun f hf => (hrest.level_of_mem_head? hf).le⟩
    rcases List.mem_append.1 he with he | he
    · -- What follows the tree in which the entry is found is further out than all of it.
      obtain ⟨before, within, after, rfl, hwithin, hafter⟩ := ihbelow he
      refine ⟨⟨level, id, node⟩ :: before, within, after ++ rest, by simp, hwithin, fun f hf => ?_⟩
      cases after with
      | nil =>
        have hlevel : level + 1 ≤ e.level := hbelow.le_level he
        have hf : f.level = level := hrest.level_of_mem_head? hf
        omega
      | cons first => exact hafter f hf
    · obtain ⟨before, within, after, rfl, hwithin, hafter⟩ := ihrest he
      exact ⟨⟨level, id, node⟩ :: (below ++ before), within, after, by simp, hwithin, hafter⟩

/-- An outline lists an existing node as often as the node is found at or below its roots. -/
theorem count_eq (h : a.Outline level ids entries) (hrooted : a.Rooted root) (hx : x < a.size) :
    (entries.map OutlineEntry.id).count x = (ids.map (a.times x)).sum := by
  -- An id without a node counts nothing; a node counts itself and what its children count.
  induction h with
  | nil => rfl
  | @skip level id ids entries hnone _ ih =>
    have hne : id ≠ x := by
      rintro rfl
      exact absurd hx (Nat.not_lt.2 (get?_eq_none_iff.1 hnone))
    have hchildren : a.children id = [] := by
      rw [children, hnone]
    rw [List.map_cons, List.sum_cons, times_eq_zero_of_children hchildren hne, Nat.zero_add, ih]
  | @node level id node ids below rest hsome _ _ ihbelow ihrest =>
    have hchildren : a.children id = node.form.children := by
      rw [children, hsome]
    rw [List.map_cons, List.map_append, List.count_cons, List.count_append, ihbelow, ihrest,
      List.map_cons, List.sum_cons, hrooted.times_eq x id, hchildren]
    by_cases hid : id = x
    · simp only [hid, beq_self_eq_true, if_true]
      omega
    · simp [hid]

/-- What an outline lists exists. -/
theorem lt_size (h : a.Outline level ids entries) (hx : x ∈ entries.map OutlineEntry.id) :
    x < a.size := by
  obtain ⟨e, he, rfl⟩ := List.mem_map.1 hx
  exact (get?_eq_some_iff.1 (h.get? he)).1

/-- The outline of one tree lists an existing node as often as it is found there. -/
theorem count_eq_times (h : a.Outline level [id] entries) (hrooted : a.Rooted root)
    (hx : x < a.size) : (entries.map OutlineEntry.id).count x = a.times x id := by
  rw [h.count_eq hrooted hx, List.map_cons, List.map_nil, List.sum_singleton]

/-- The outline of one tree lists no node twice. -/
theorem nodup_ids (h : a.Outline level [id] entries) (hrooted : a.Rooted root) :
    (entries.map OutlineEntry.id).Nodup := by
  rw [List.nodup_iff_count_le_one]
  intro x
  by_cases hx : x ∈ entries.map OutlineEntry.id
  · rw [h.count_eq_times hrooted (h.lt_size hx)]
    exact times_le_one
  · rw [List.count_eq_zero.2 hx]
    exact Nat.zero_le 1

/-- The outline of one tree lists the nodes that are found from its root. -/
theorem mem_ids (h : a.Outline level [id] entries) (hrooted : a.Rooted root) :
    x ∈ entries.map OutlineEntry.id ↔ a.Reaches id x ∧ x < a.size := by
  constructor
  · intro hx
    refine ⟨by_contra fun hreach => ?_, h.lt_size hx⟩
    have hzero := h.count_eq_times hrooted (h.lt_size hx)
    rw [times_eq_zero hreach] at hzero
    exact List.count_eq_zero.1 hzero hx
  · rintro ⟨hreach, hx⟩
    refine List.count_pos_iff.1 ?_
    rw [h.count_eq_times hrooted hx, times_eq_one hreach]
    exact Nat.zero_lt_one

end Outline

/-- If outlines tell the lines of each of some trees, one outline tells those of all. -/
theorem exists_outline_flatMap {shown : LineMap → NodeId → List String}
    (h : ∀ id ∈ ids, ∃ entries, a.Outline level [id] entries ∧
      ∀ lines, shown lines id = entries.map (·.line lines)) :
    ∃ entries, a.Outline level ids entries ∧
      ∀ lines, ids.flatMap (shown lines) = entries.map (·.line lines) := by
  induction ids with
  | nil => exact ⟨[], .nil, fun _ => rfl⟩
  | cons id ids ih =>
    obtain ⟨first, hfirst, hshown⟩ := h id List.mem_cons_self
    obtain ⟨rest, hrest, hall⟩ := ih fun id hid => h id (List.mem_cons_of_mem _ hid)
    refine ⟨first ++ rest, hfirst.append hrest, fun lines => ?_⟩
    rw [List.flatMap_cons, hshown, hall, List.map_append]

/-- The lines of a tree down to some depth are those of its outline, if its root has an id below
that depth: on the way down ids become less. -/
theorem exists_outline_within (hlt : a.ChildrenFirst) (fuel level : Nat) {id : NodeId}
    (hid : id < fuel ∨ a.get? id = none) :
    ∃ entries, a.Outline level [id] entries ∧
      ∀ lines, a.treeLinesAt lines fuel level id = entries.map (·.line lines) := by
  induction fuel generalizing level id with
  | zero =>
    have hnone := hid.resolve_left (Nat.not_lt_zero id)
    exact ⟨[], .skip hnone .nil, fun _ => rfl⟩
  | succ fuel ih =>
    cases hnode : a.get? id with
    | none =>
      refine ⟨[], .skip hnode .nil, fun lines => ?_⟩
      simp [treeLinesAt, lineAt, children, hnode]
    | some node =>
      -- The children have less ids than the node, so less fuel is enough for them.
      have hfuel : id < fuel + 1 := hid.resolve_right (hnode ▸ Option.some_ne_none node)
      have hchildren : a.children id = node.form.children := by
        rw [children, hnode]
      obtain ⟨below, hbelow, hshown⟩ := exists_outline_flatMap fun c hc =>
        ih (level + 1) (.inl (Nat.lt_of_lt_of_le (hlt id c hc) (Nat.le_of_lt_succ hfuel)))
      rw [hchildren] at hbelow
      refine ⟨⟨level, id, node⟩ :: (below ++ []), .node hnode hbelow .nil, fun lines => ?_⟩
      rw [treeLinesAt, hshown, List.append_nil, List.map_cons, lineAt, hnode]
      rfl

/-- Every tree has an outline, which tells its lines. -/
theorem exists_outline (hlt : a.ChildrenFirst) (id : NodeId) :
    ∃ entries, a.Outline 0 [id] entries ∧
      ∀ lines, a.treeLines lines id = entries.map (·.line lines) := by
  refine exists_outline_within hlt a.size 0 ?_
  rw [get?_eq_none_iff]
  exact Nat.lt_or_ge id a.size

end Arena

end TypeProbe
