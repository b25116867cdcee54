import Mathlib.Data.List.DropRight
import TypeProbe.Proofs.Tree.Outline

/-!
# What a writer has written

A writer keeps its indentation as a text that grows on the way into a tree and is cut off on the way
out. `TreeWriter.walkWithin_eq` compares it with the lines that are shown for a tree, where the
level is counted instead: a walk from any state of the writer adds these lines, each behind what the
indentation was before, and leaves the indentation as it was. So calls of a writer do not depend on
each other, and what is taken from it is what writers without output would have written for the
calls since it was empty the last time (`TreeWriter.walk_outlines`).
-/

namespace TypeProbe

/-- There are no blanks in front of what is on the outermost level. -/
theorem append_levelIndent_zero (base : String) : base ++ levelIndent 0 = base :=
  String.append_empty

/-- The blanks of one more level stand behind those of the levels before. -/
theorem levelIndent_succ (level : Nat) :
    levelIndent (level + 1) = levelIndent level ++ levelIndent 1 := by
  rw [levelIndent, Nat.mul_succ, List.replicate_add, String.ofList_append]
  rfl

/-- The text of lines is put together from the texts of its parts. -/
theorem linesText_append (shown more : List String) :
    linesText (shown ++ more) = linesText shown ++ linesText more := by
  rw [linesText, List.map_append, String.join_append]
  rfl

namespace TreeWriter

variable {a : Arena} {lines : LineMap} {w : TreeWriter} {base : String} {level : Nat}

/-- Writes lines as they are. -/
def write (w : TreeWriter) (shown : List String) : TreeWriter :=
  { w with output := w.output ++ linesText shown }

@[simp] theorem indentation_write (w : TreeWriter) (shown : List String) :
    (w.write shown).indentation = w.indentation := rfl

@[simp] theorem write_nil (w : TreeWriter) : w.write [] = w := by
  simp [write, linesText]

/-- Lines may be written one part after the other. -/
theorem write_write (w : TreeWriter) (shown more : List String) :
    (w.write shown).write more = w.write (shown ++ more) := by
  simp only [write, linesText_append, String.append_assoc]

/-- The writer comes back out to where it was before it went in. -/
theorem outdent_write_indent (w : TreeWriter) (shown : List String) :
    (w.indent.write shown).outdent = w.write shown := by
  simp [outdent, indent, write, levelIndent, String.toList_append, List.replicate,
    List.dropLast_append_of_ne_nil]

/-- The line of a node is written behind the indentation. -/
theorem visit_eq (hw : w.indentation = base ++ levelIndent level) (id : NodeId) :
    w.visit a lines id = w.write ((a.lineAt lines level id).map (base ++ ·)) := by
  cases hnode : a.get? id with
  | none => simp [visit, Arena.lineAt, hnode]
  | some node =>
    simp [visit, log, write, linesText, Arena.lineAt, hnode, hw, String.append_assoc]

/-- If a writer adds the same lines in every state with an indentation, it adds those of one node
after the other. -/
theorem foldl_eq {step : TreeWriter → NodeId → TreeWriter} {shown : NodeId → List String}
    (hstep : ∀ w : TreeWriter, w.indentation = base → ∀ id, step w id = w.write (shown id))
    (hw : w.indentation = base) (ids : List NodeId) :
    ids.foldl step w = w.write (ids.flatMap shown) := by
  induction ids generalizing w with
  | nil => simp
  | cons id ids ih =>
    rw [List.foldl_cons, hstep w hw, ih (by simpa), write_write, List.flatMap_cons]

/-- A walk adds the lines of the tree behind what is in front of all of them. -/
theorem walkWithin_eq (fuel : Nat) (hw : w.indentation = base ++ levelIndent level) (id : NodeId) :
    walkWithin a lines fuel w id =
      w.write ((a.treeLinesAt lines fuel level id).map (base ++ ·)) := by
  induction fuel generalizing w level id with
  | zero => simp [walkWithin, Arena.treeLinesAt]
  | succ fuel ih =>
    rw [walkWithin, Arena.treeLinesAt, List.map_append, ← write_write, ← visit_eq hw]
    generalize hvisited : w.visit a lines id = visited
    -- The next level stands in the indentation, and what is in front of all lines stays.
    have hindent : visited.indent.indentation = base ++ levelIndent (level + 1) := by
      rw [levelIndent_succ, ← String.append_assoc, ← hw, ← hvisited, visit_eq hw]
      rfl
    rw [List.map_flatMap]
    by_cases hchildren : a.children id = []
    · simp [hchildren]
    · rw [if_neg (by simpa using hchildren),
        foldl_eq (fun w hw id => ih hw id) hindent, outdent_write_indent]

/-- A walk adds the lines of a tree, each behind the indentation. -/
theorem walk_eq (w : TreeWriter) (id : NodeId) :
    w.walk a lines id = w.write ((a.treeLines lines id).map (w.indentation ++ ·)) :=
  walkWithin_eq a.size (append_levelIndent_zero w.indentation).symm id

end TreeWriter

/-- A call of a writer: for the line of a node in the tree of a text, for the lines of the node and
of all nodes below it, or for an end of what has been written. -/
inductive WriterCall where
  | visit (text : String) (id : NodeId)
  | walk (text : String) (id : NodeId)
  | reset
  | take

namespace WriterCall

/-- What a call leaves of a writer. -/
def on (lines : LineMap) (w : TreeWriter) : WriterCall → TreeWriter
  | .visit text id => w.visit (ParsedText.ofText text).arena lines id
  | .walk text id => w.walk (ParsedText.ofText text).arena lines id
  | .reset => w.reset
  | .take => w.take.2

/-- Whether a call leaves the writer without output. -/
def clears : WriterCall → Bool
  | .visit .. | .walk .. => false
  | .reset | .take => true

variable {lines : LineMap} {w : TreeWriter}

/-- After a call that clears a writer it is like a new one. -/
theorem on_of_clears {call : WriterCall} (h : call.clears = true) : call.on lines w = .empty := by
  cases call with
  | visit | walk => cases h
  | reset | take => rfl

/-- Any other call writes lines behind the indentation that do not depend on the writer. -/
theorem exists_lines (lines : LineMap) {call : WriterCall} (h : call.clears = false) :
    ∃ shown : List String, ∀ w : TreeWriter,
      call.on lines w = w.write (shown.map (w.indentation ++ ·)) := by
  cases call with
  | visit text id =>
    exact ⟨(ParsedText.ofText text).arena.lineAt lines 0 id,
      fun w => TreeWriter.visit_eq (append_levelIndent_zero w.indentation).symm id⟩
  | walk text id => exact ⟨_, fun w => w.walk_eq id⟩
  | reset | take => cases h

/-- After any calls a new writer holds what the calls since it was empty the last time write on
their own. -/
theorem foldl_on (calls : List WriterCall) :
    calls.foldl (on lines) .empty =
      ⟨"", String.join ((calls.rtakeWhile fun call => !call.clears).map fun call =>
        (call.on lines .empty).output)⟩ := by
  -- The last call either clears the writer or adds to what the calls before it left.
  induction calls using List.reverseRecOn with
  | nil => rfl
  | append_singleton calls call ih =>
    rw [List.foldl_append, List.foldl_cons, List.foldl_nil]
    cases hclears : call.clears with
    | true =>
      rw [on_of_clears hclears, List.rtakeWhile_concat_neg _ _ _ (by simp [hclears])]
      rfl
    | false =>
      obtain ⟨shown, hshown⟩ := exists_lines lines hclears
      rw [ih, List.rtakeWhile_concat_pos _ _ _ (by simp [hclears]), List.map_append,
        String.join_append]
      simp [hshown, TreeWriter.write, TreeWriter.empty]

end WriterCall

/-- For a node in the tree of any text, a walk of a writer in any state adds the outline of what is
at and below the node, in preorder with two blanks for every level below it, each line behind what
the writer's indentation is, and leaves the indentation as it was; the outline lists every node that
is found from this one, once. After any calls, what is taken from a writer that was new before them
is what new writers write for the calls since the last one that cleared it. -/
theorem TreeWriter.walk_outlines (lines : LineMap) :
    (∀ text id, ∃ entries, (ParsedText.ofText text).arena.Outline 0 [id] entries ∧
      (entries.map OutlineEntry.id).Nodup ∧
      (∀ x, x ∈ entries.map OutlineEntry.id ↔
        (ParsedText.ofText text).arena.Reaches id x ∧ x < (ParsedText.ofText text).arena.size) ∧
      ∀ w : TreeWriter, w.walk (ParsedText.ofText text).arena lines id =
        ⟨w.indentation, w.output ++ linesText (entries.map fun e =>
          w.indentation ++ (levelIndent e.level ++ nodeLine lines e.id e.node))⟩) ∧
    ∀ calls : List WriterCall, (calls.foldl (WriterCall.on lines) .empty).take.1 =
      String.join ((calls.rtakeWhile fun call => !call.clears).map fun call =>
        (call.on lines .empty).take.1) := by
  constructor
  · intro text id
    have hrooted := ParsedText.rooted_ofText text
    obtain ⟨entries, houtline, hshown⟩ := Arena.exists_outline hrooted.lt id
    refine ⟨entries, houtline, houtline.nodup_ids hrooted, fun x => houtline.mem_ids hrooted,
      fun w => ?_⟩
    rw [walk_eq, hshown, List.map_map]
    rfl
  · intro calls
    rw [WriterCall.foldl_on]
    rfl

end TypeProbe
