import TypeProbe.Project.Report
import TypeProbe.Proofs.Inference.Repeats
import TypeProbe.Proofs.Tree.Nearest

/-!
# When a question about a type is answered

A report on the type at a range says that there is nothing, or it shows a type, or it says of an
expression that it has none. `SourceFile.typeText_eq_nothing_iff` says when there is nothing: where
the range starts behind the text, or where the node at its start is neither a name right under a
definition nor at or below an expression that covers the range. What is shown of anything else
reads differently (`SourceFile.targetText_ne_nothing`), since a definition always has types.

Where there is no node at the start of the range there is none at its stop either: the range of the
root is that of the text, so only a start behind the text has no node, and a range does not stop
before it starts (`ParsedText.anchor?_eq`).
-/

namespace TypeProbe

/-! ## What a question is about -/

namespace Arena

variable {a : Arena} {n : NodeId} {range : TextRange}

/-- A name stands right under the definition of a class or a function. -/
def IsUnderDefinition (a : Arena) (n : NodeId) : Prop :=
  a.kind? n = some .name ∧ ∃ parent, a.parent? n = some parent ∧
    (a.kind? parent = some .class ∨ a.kind? parent = some .function)

/-- A question that is about something is about a class, a function or an expression, as it says. -/
def HasTarget (a : Arena) : TypeTarget → Prop
  | .classDef node => a.kind? node = some .class
  | .function node => a.kind? node = some .function
  | .expression node => a.isExpression node = true

/-- A question is about nothing if its node is neither right under a definition nor within an
expression around the range. -/
theorem target?_eq_none_iff : a.target? n range = none ↔
    ¬ a.IsUnderDefinition n ∧ a.enclosingExpression? n range = none := by
  unfold target? IsUnderDefinition
  extract_lets expression
  split
  · rename_i parent hkind hparent
    rw [hkind, hparent]
    split
    · simp [*]
    · simp [*]
    · rename_i hclass hfunction
      simp [expression, show a.kind? parent ≠ some .class from hclass,
        show a.kind? parent ≠ some .function from hfunction]
  · rename_i hname
    refine ⟨fun h => ⟨?_, Option.map_eq_none_iff.1 h⟩, fun h => Option.map_eq_none_iff.2 h.2⟩
    rintro ⟨hkind, parent, hparent, -⟩
    exact hname parent hkind hparent

/-- What a question is about is there. -/
theorem hasTarget_of_target? {target : TypeTarget} (h : a.target? n range = some target) :
    a.HasTarget target := by
  have hexpression : (a.enclosingExpression? n range).map .expression = some target →
      a.HasTarget target := by
    intro h
    obtain ⟨node, hnode, rfl⟩ := Option.map_eq_some_iff.1 h
    exact List.find?_some hnode
  unfold target? at h
  extract_lets expression at h
  split at h
  · split at h
    · obtain rfl := Option.some.inj h
      assumption
    · obtain rfl := Option.some.inj h
      assumption
    · exact hexpression h
  · exact hexpression h

end Arena

/-! ## What is shown -/

/-- A text that starts differently is not the one for nothing. -/
theorem ne_nothingText {text : String} (h : text.toList.head? ≠ some 'N') :
    text ≠ SourceFile.nothingText := by
  rintro rfl
  exact h rfl

/-- A record is written in braces. -/
theorem Json.head?_pretty_record (fields : List (String × Json)) :
    (Json.record fields).pretty.toList.head? = some '\x7b' := by
  cases fields with
  | nil => rfl
  | cons field fields =>
    simp only [pretty, prettyAt, String.toList_append]
    rfl

/-- The outline of a record is shown as a record. -/
theorem TypeGraph.render_record (g : TypeGraph) (fields : List (String × Outline)) :
    ∃ shown, g.render (.record fields) = (Json.record shown).pretty :=
  ⟨_, rfl⟩

namespace SourceFile

variable {file : SourceFile} {range : TextRange} {text : String}

/-- The text of an outline that is a record is not the one for nothing. -/
theorem render_record_ne_nothing (g : TypeGraph) (fields : List (String × Outline)) :
    g.render (.record fields) ≠ nothingText := by
  obtain ⟨shown, hshown⟩ := g.render_record fields
  rw [hshown]
  refine ne_nothingText ?_
  rw [Json.head?_pretty_record]
  decide

/-- What is shown of an expression is never nothing. -/
theorem expressionText_ne_nothing {node : NodeId}
    (hnode : file.parsed.arena.isExpression node = true)
    (h : file.expressionText node range = some text) : text ≠ nothingText := by
  obtain ⟨r, hr⟩ : ∃ r, file.parsed.arena.range? node = some r := by
    unfold Arena.isExpression Arena.kind? at hnode
    cases hget : file.parsed.arena.get? node with
    | none =>
      rw [hget] at hnode
      cases hnode
    | some n => exact ⟨_, by rw [Arena.range?, hget]; rfl⟩
  unfold expressionText at h
  rw [hr] at h
  obtain ⟨⟨type?, c⟩, -, h⟩ := Option.bind_eq_some_iff.1 h
  obtain rfl := Option.some.inj h
  refine ne_nothingText ?_
  simp only [String.toList_append, List.append_assoc]
  exact fun hhead => absurd (Option.some.inj hhead) (by decide)

/-- The checker for a file works on its tree. -/
theorem arena_checker (file : SourceFile) :
    file.checker.program.arena = file.parsed.arena := by
  obtain ⟨b, s, -, hstart⟩ := Checker.checker_eq file
  rw [hstart]

/-- What is shown of that which a question is about is never nothing. -/
theorem targetText_ne_nothing {target : TypeTarget} (htarget : file.parsed.arena.HasTarget target)
    (h : file.targetText target range = some text) : text ≠ nothingText := by
  cases target with
  | classDef node =>
    obtain ⟨⟨types?, c⟩, hasked, h⟩ := Option.bind_eq_some_iff.1 h
    have hclass : file.checker.program.isClass node = true := by
      rw [Program.isClass, arena_checker]
      exact beq_iff_eq.2 htarget
    obtain ⟨types, rfl⟩ := Option.isSome_iff_exists.1 (Checker.given_of_ask? hasked hclass)
    obtain rfl := Option.some.inj h
    exact render_record_ne_nothing _ _
  | function node =>
    obtain ⟨⟨types?, c⟩, hasked, h⟩ := Option.bind_eq_some_iff.1 h
    have hfunction : file.checker.program.isFunction node = true := by
      rw [Program.isFunction, arena_checker]
      exact beq_iff_eq.2 htarget
    obtain ⟨types, rfl⟩ := Option.isSome_iff_exists.1 (Checker.given_of_ask? hasked hfunction)
    obtain rfl := Option.some.inj h
    exact render_record_ne_nothing _ _
  | expression node => exact expressionText_ne_nothing htarget h

/-- There is nothing to show exactly if the question is about nothing. -/
theorem typeText_eq_nothing_iff_target (file : SourceFile) (start stop : Nat) :
    file.typeText start stop = some nothingText ↔
      ((file.parsed.arena.anchor? file.parsed.root (TextRange.ofBounds start stop)).bind fun anchor =>
        file.parsed.arena.target? anchor (TextRange.ofBounds start stop)) = none := by
  unfold typeText
  extract_lets a range
  split
  · rename_i target htarget
    obtain ⟨anchor, -, htarget⟩ := Option.bind_eq_some_iff.1 htarget
    refine iff_of_false (fun h => ?_) (by simp [a, range, *])
    exact targetText_ne_nothing (Arena.hasTarget_of_target? htarget) h rfl
  · rename_i hnone
    exact iff_of_true rfl hnone

end SourceFile

namespace ParsedText

/-- There is a node at every offset of a text, its end included, and at no other. -/
theorem findAt?_eq_none_iff (text : String) (offset : Nat) :
    (ofText text).arena.findAt? (ofText text).root offset = none ↔
      byteLength text.toList < offset := by
  unfold Arena.findAt? Arena.touches
  rw [range?_root]
  simp [TextRange.touches, TextRange.stop]

/-- The node at which a question starts is the one at the start of its range. -/
theorem anchor?_eq (text : String) (start stop : Nat) :
    (ofText text).arena.anchor? (ofText text).root (TextRange.ofBounds start stop) =
      (ofText text).arena.findAt? (ofText text).root start := by
  unfold Arena.anchor?
  rw [TextRange.start_ofBounds, TextRange.stop_ofBounds]
  cases hstart : (ofText text).arena.findAt? (ofText text).root start with
  | some n => rfl
  | none =>
    have hbehind := (findAt?_eq_none_iff text start).1 hstart
    exact (findAt?_eq_none_iff text _).2 (Nat.lt_of_lt_of_le hbehind (Nat.le_max_left _ _))

/-- A node that is found at an offset is there. -/
theorem lt_size_of_findAt? {text : String} {offset : Nat} {n : NodeId}
    (h : (ofText text).arena.findAt? (ofText text).root offset = some n) :
    n < (ofText text).arena.size := by
  obtain ⟨-, heq⟩ := Option.ite_none_right_eq_some.1 h
  have hrooted := rooted_ofText text
  have hle := ((ofText text).arena.reaches_descend offset (ofText text).arena.size
    (ofText text).root).le hrooted.lt
  rw [Option.some.inj heq] at hle
  exact hrooted.last ▸ Nat.lt_succ_of_le hle

/-- No expression is found around a node and a range exactly if none at or above the node reaches
over the range. -/
theorem enclosingExpression?_eq_none_iff (text : String) (range : TextRange) {n : NodeId}
    (hn : n < (ofText text).arena.size) :
    (ofText text).arena.enclosingExpression? n range = none ↔
      ∀ e r, (ofText text).arena.Reaches e n → (ofText text).arena.isExpression e = true →
        (ofText text).arena.range? e = some r →
        ¬ (r.start ≤ range.start ∧ range.stop ≤ r.stop) := by
  rw [(nested_ofText text).enclosingExpression?_eq_none_iff (rooted_ofText text) hn]
  constructor
  · intro hnone e r hreach hexpression hr hholds
    exact hnone e hreach ⟨hexpression, r, hr, hholds⟩
  · rintro hall e hreach ⟨hexpression, r, hr, hholds⟩
    exact hall e r hreach hexpression hr hholds

end ParsedText

/-- There is nothing to show of the type at a range exactly if it starts behind the text, or if the
node at its start is neither right under a definition nor at or below an expression that reaches
over the range; where there is no node at its start, there is none at its stop. -/
theorem SourceFile.typeText_eq_nothing_iff (name text : String) (start stop : Nat) :
    let p := ParsedText.ofText text
    ((ofText name text).typeText start stop = some nothingText ↔
      byteLength text.toList < start ∨ ∃ n, p.arena.findAt? p.root start = some n ∧
        ¬ p.arena.IsUnderDefinition n ∧ ∀ e r, p.arena.Reaches e n →
          p.arena.isExpression e = true → p.arena.range? e = some r →
          ¬ (r.start ≤ start ∧ max start stop ≤ r.stop)) ∧
      p.arena.anchor? p.root (TextRange.ofBounds start stop) = p.arena.findAt? p.root start := by
  intro p
  have hanchor : p.arena.anchor? p.root (TextRange.ofBounds start stop) =
      p.arena.findAt? p.root start := ParsedText.anchor?_eq text start stop
  refine ⟨?_, hanchor⟩
  rw [typeText_eq_nothing_iff_target, ← ParsedText.findAt?_eq_none_iff]
  show ((p.arena.anchor? p.root _).bind fun anchor => p.arena.target? anchor _) = none ↔
    p.arena.findAt? p.root start = none ∨ _
  rw [hanchor]
  cases hfound : p.arena.findAt? p.root start with
  | none => simp
  | some n =>
    have hexpression := ParsedText.enclosingExpression?_eq_none_iff text
      (TextRange.ofBounds start stop) (ParsedText.lt_size_of_findAt? hfound)
    rw [TextRange.start_ofBounds, TextRange.stop_ofBounds] at hexpression
    rw [Option.bind_some, Arena.target?_eq_none_iff, hexpression]
    simp [p]

end TypeProbe
