import TypeProbe.Project.Report
import TypeProbe.Proofs.Tree.NodeLines
import TypeProbe.Proofs.Tree.Writer

/-!
# Trees read back from their text

The text of a file's tree has the lines of the outline in order, one for every node that is found
from the root (`SourceFile.treeText_outlines`). Text that a string stands for is written as it is,
so each line feed in it breaks the line of its node; these are the only line feeds besides those
behind the lines. Where there are none, the tree can be read back: a line tells the level of its
node by its blanks and the id by the digits between brackets (`TreeRow.ofLine_line`), and the levels
tell which nodes are the children of a node (`TreeRow.childrenOf_outline`).
-/

namespace TypeProbe

/-! ## Lines -/

/-- A text of lines has a line feed behind each of them, and those that they hold. -/
theorem count_linesText (shown : List String) : (linesText shown).toList.count '\n' =
    shown.length + (shown.map fun line => line.toList.count '\n').sum := by
  induction shown with
  | nil => rfl
  | cons line shown ih =>
    have hline : linesText (line :: shown) = line ++ "\n" ++ linesText shown := by
      simp [linesText]
    rw [hline, String.toList_append, String.toList_append, List.count_append, List.count_append, ih,
      List.length_cons, List.map_cons, List.sum_cons]
    have hfeed : "\n".toList.count '\n' = 1 := rfl
    omega

/-- Lines without line feeds are what the text of them is split into. -/
theorem splitOn_linesText {shown : List String} (h : ∀ line ∈ shown, OneLine line) :
    (linesText shown).toList.splitOn '\n' = shown.map String.toList ++ [[]] := by
  induction shown with
  | nil => rfl
  | cons line shown ih =>
    have hline : (linesText (line :: shown)).toList =
        line.toList ++ '\n' :: (linesText shown).toList := by
      simp [linesText]
    have hfeed : ∀ c ∈ line.toList, (c == '\n') = false := fun c hc =>
      beq_eq_false_iff_ne.2 fun heq => h line List.mem_cons_self (heq ▸ hc)
    rw [hline, List.splitOn, List.splitOnP_append_cons_of_forall_mem hfeed _ rfl]
    exact congrArg _ (ih fun line hline => h line (List.mem_cons_of_mem _ hline))

/-! ## Rows -/

/-- What a line of the text of a tree tells of a node. -/
structure TreeRow where
  /-- How many nodes above the node are shown. -/
  level : Nat
  /-- The id of the node. -/
  id : NodeId
deriving DecidableEq

namespace TreeRow

/-- Reads a line: two blanks at its front make a level, and the id stands behind a bracket. -/
def ofLine (line : List Char) : TreeRow where
  level := (line.takeWhile (· = ' ')).length / 2
  id := Nat.ofDigitChars 10 (((line.dropWhile (· = ' ')).drop 1).takeWhile Char.isDigit) 0

/-- Reads the text of a tree, which ends with the end of a line. -/
def ofText (text : String) : List TreeRow := (text.toList.splitOn '\n').dropLast.map ofLine

/-- The children of a node: of the rows behind its own that are further in the ones on the next
level. -/
def childrenOf (rows : List TreeRow) (id : NodeId) : List NodeId :=
  match rows.dropWhile (·.id ≠ id) with
  | [] => []
  | row :: further =>
    ((further.takeWhile (row.level < ·.level)).filter (·.level = row.level + 1)).map TreeRow.id

/-- The row of an entry. -/
def ofEntry (e : OutlineEntry) : TreeRow := ⟨e.level, e.id⟩

variable {a : Arena} {level : Nat} {ids : List NodeId} {entries : List OutlineEntry}
  {e : OutlineEntry}

/-- The line of an entry is read as its row. -/
theorem ofLine_line (lines : LineMap) (e : OutlineEntry) :
    ofLine (e.line lines).toList = ofEntry e := by
  obtain ⟨rest, hline⟩ := nodeLine_front lines e.id e.node
  have hblanks : ∀ c ∈ List.replicate (2 * e.level) ' ', decide (c = ' ') = true := fun c hc =>
    decide_eq_true (List.eq_of_mem_replicate hc)
  have hdigits : ∀ c ∈ Nat.toDigits 10 e.id, c.isDigit = true := fun c hc =>
    Nat.isDigit_of_mem_toDigits (by decide) (by decide) hc
  have htoList : (e.line lines).toList =
      List.replicate (2 * e.level) ' ' ++ ('[' :: (Nat.toDigits 10 e.id ++ ']' :: rest)) := by
    rw [OutlineEntry.line, String.toList_append, hline, levelIndent, String.toList_ofList]
  have hlevel : (2 * e.level) / 2 = e.level := Nat.mul_div_cancel_left e.level (by decide)
  simp only [ofLine, htoList, List.takeWhile_append_of_pos hblanks,
    List.dropWhile_append_of_pos hblanks]
  -- The bracket ends the blanks, and the other one the digits.
  rw [List.takeWhile_cons_of_neg (by decide), List.dropWhile_cons_of_neg (by decide),
    List.drop_one, List.tail_cons, List.takeWhile_append_of_pos hdigits,
    List.takeWhile_cons_of_neg (by decide), List.append_nil, List.append_nil,
    List.length_replicate, hlevel, Nat.ofDigitChars_ten_toDigits]
  rfl

/-- The text of the lines of an outline is read as its rows, if the lines hold no line feeds. -/
theorem ofText_linesText {lines : LineMap} (h : ∀ e ∈ entries, OneLine (e.line lines)) :
    ofText (linesText (entries.map (·.line lines))) = entries.map ofEntry := by
  rw [ofText, splitOn_linesText (List.forall_mem_map.2 h), List.dropLast_concat, List.map_map, List.map_map]
  exact List.map_congr_left fun e _ => ofLine_line lines e

/-- The children of a node are read from the rows of an outline, if they exist. -/
theorem childrenOf_outline (h : a.Outline level ids entries)
    (hnodup : (entries.map OutlineEntry.id).Nodup) (he : e ∈ entries)
    (hexist : ∀ id ∈ e.node.form.children, a.get? id ≠ none) :
    childrenOf (entries.map ofEntry) e.id = e.node.form.children := by
  obtain ⟨before, below, after, rfl, hbelow, hafter⟩ := h.cut he
  -- No row before that of the node has its id.
  rw [List.map_append, List.map_cons, List.nodup_append] at hnodup
  have hbefore : ∀ row ∈ before.map ofEntry, decide (row.id ≠ e.id) = true := by
    intro row hrow
    obtain ⟨f, hf, rfl⟩ := List.mem_map.1 hrow
    exact decide_eq_true
      (hnodup.2.2 f.id (List.mem_map_of_mem hf) e.id List.mem_cons_self)
  have hin : ∀ row ∈ below.map ofEntry, decide (e.level < row.level) = true := by
    intro row hrow
    obtain ⟨f, hf, rfl⟩ := List.mem_map.1 hrow
    exact decide_eq_true (hbelow.le_level hf)
  have hout : (after.map ofEntry).takeWhile (fun row => e.level < row.level) = [] := by
    cases after with
    | nil => rfl
    | cons f after =>
      have hlevel : ¬ e.level < f.level := Nat.not_lt.2 (hafter f rfl)
      exact List.takeWhile_cons_of_neg fun hfurther => hlevel (of_decide_eq_true hfurther)
  have hrows : (before ++ e :: (below ++ after)).map ofEntry =
      before.map ofEntry ++ ofEntry e :: (below.map ofEntry ++ after.map ofEntry) := by
    simp
  rw [childrenOf, hrows, List.dropWhile_append_of_pos hbefore,
    List.dropWhile_cons_of_neg (by simp [ofEntry])]
  show (((below.map ofEntry ++ after.map ofEntry).takeWhile (fun row => e.level < row.level)).filter
    fun row => row.level = e.level + 1).map TreeRow.id = _
  rw [List.takeWhile_append_of_pos hin, hout, List.append_nil, List.filter_map, List.map_map]
  exact hbelow.tops hexist

example : childrenOf [⟨0, 4⟩, ⟨1, 2⟩, ⟨2, 0⟩, ⟨2, 1⟩, ⟨1, 3⟩] 4 = [2, 3] := by decide

end TreeRow

/-! ## Trees of files -/

/-- In the tree of a text the line of a node holds the line feeds of the text that a string stands
for, and no other ones: there are none in the blanks, and none in names. -/
theorem ParsedText.count_line {text : String} (lines : LineMap) {e : OutlineEntry}
    (he : (ofText text).arena.get? e.id = some e.node) :
    (e.line lines).toList.count '\n' =
      (e.node.form.quotedText?.getD "").toList.count '\n' := by
  have hname : ∀ token value, e.node.form = .name token value → OneLine value := by
    intro token value hform
    have hnode : (ofText text).arena.form? e.id = some (.name token value) :=
      (congrArg (Option.map Node.form) he).trans (congrArg some hform)
    exact oneLine_of_name hnode
  have hblanks : OneLine (levelIndent e.level) := by simp [levelIndent]
  calc (e.line lines).toList.count '\n'
      = (levelIndent e.level).toList.count '\n' + (nodeLine lines e.id e.node).toList.count '\n' := by
        rw [OutlineEntry.line, String.toList_append, List.count_append]
    _ = (nodeLine lines e.id e.node).toList.count '\n' := by rw [hblanks.count_eq, Nat.zero_add]
    _ = (e.node.form.quotedText?.getD "").toList.count '\n' := count_nodeLine lines e.id hname

/-- The text of the tree of every file has the lines of the nodes that are found from its root, in
preorder, each once, each with two blanks for every node above it; it has a line feed behind each
of them, and besides these the line feeds of the texts that strings stand for, which are written as
they are. If there are none of these, there is one line for every node, and the levels and ids and
so the children of every node can be read back. -/
theorem SourceFile.treeText_outlines (name text : String) :
    let file := SourceFile.ofText name text
    let shown (e : OutlineEntry) := levelIndent e.level ++ nodeLine file.parsed.lines e.id e.node
    ∃ entries, file.parsed.arena.Outline 0 [file.parsed.root] entries ∧
      (entries.map OutlineEntry.id).Nodup ∧
      (∀ id, id ∈ entries.map OutlineEntry.id ↔
        file.parsed.arena.Reaches file.parsed.root id) ∧
      file.treeText = linesText (entries.map shown) ∧
      file.treeText.toList.count '\n' = entries.length + (entries.map fun e =>
        (e.node.form.quotedText?.getD "").toList.count '\n').sum ∧
      ((∀ e ∈ entries, ∀ quoted ∈ e.node.form.quotedText?, '\n' ∉ quoted.toList) →
        file.treeText.toList.splitOn '\n' = entries.map (fun e => (shown e).toList) ++ [[]] ∧
        TreeRow.ofText file.treeText = entries.map (fun e => ⟨e.level, e.id⟩) ∧
        ∀ id, file.parsed.arena.Reaches file.parsed.root id →
          TreeRow.childrenOf (TreeRow.ofText file.treeText) id =
            file.parsed.arena.children id) := by
  intro file shown
  have hrooted : file.parsed.arena.Rooted file.parsed.root := ParsedText.rooted_ofText text
  obtain ⟨entries, houtline, hlines⟩ := Arena.exists_outline hrooted.lt file.parsed.root
  have hnodup := houtline.nodup_ids hrooted
  have hmem : ∀ id, id ∈ entries.map OutlineEntry.id ↔
      file.parsed.arena.Reaches file.parsed.root id := fun id =>
    (houtline.mem_ids hrooted).trans (and_iff_left_of_imp hrooted.lt_size_of_reaches)
  have htext : file.treeText = linesText (entries.map shown) := by
    rw [treeText, TreeWriter.walk_eq, hlines, List.map_map]
    refine String.empty_append.trans (congrArg linesText ?_)
    exact List.map_congr_left fun e _ => String.empty_append
  have hcount : ∀ e ∈ entries, (shown e).toList.count '\n' =
      (e.node.form.quotedText?.getD "").toList.count '\n' := fun e he =>
    ParsedText.count_line file.parsed.lines (houtline.get? he)
  refine ⟨entries, houtline, hnodup, hmem, htext, ?_, fun hquoted => ?_⟩
  · rw [htext, count_linesText, List.length_map, List.map_map]
    exact congrArg (entries.length + List.sum ·) (List.map_congr_left hcount)
  · have hone : ∀ e ∈ entries, OneLine (shown e) := by
      intro e he
      refine List.count_eq_zero.1 ((hcount e he).trans ?_)
      cases hform : e.node.form.quotedText? with
      | none => rfl
      | some quoted => exact List.count_eq_zero.2 (hquoted e he quoted hform)
    have hsplit : file.treeText.toList.splitOn '\n' =
        entries.map (fun e => (shown e).toList) ++ [[]] := by
      rw [htext, splitOn_linesText (List.forall_mem_map.2 hone), List.map_map]
      rfl
    have hrows : TreeRow.ofText file.treeText = entries.map TreeRow.ofEntry :=
      htext ▸ TreeRow.ofText_linesText hone
    refine ⟨hsplit, hrows, fun id hid => ?_⟩
    obtain ⟨e, he, rfl⟩ := List.mem_map.1 ((hmem id).2 hid)
    have hchildren : file.parsed.arena.children e.id = e.node.form.children := by
      rw [Arena.children, houtline.get? he]
    rw [hrows, hchildren]
    refine TreeRow.childrenOf_outline houtline hnodup he fun c hc hnone => ?_
    obtain ⟨form, hform⟩ := hrooted.exists_form (hchildren ▸ hc)
    rw [Arena.form?, hnone] at hform
    cases hform

end TypeProbe
