import TypeProbe.Proofs.Progress.Text
import TypeProbe.Proofs.Token.Names

/-!
# Faults of a text

The faults of a text are noted from left to right, and none at the place of another one. They are
noted where the next token stands, or where a token stood that was just taken and ended a block; so
the last one is never behind the next token (`ParseState.Faithful`).

A node that stands in for something missing is added only after a fault was noted. This holds of all
parsers but those that are out of bounds; since no bound is reached, they may as well note a fault
(`Rule.tooDeep`).
-/

open TypeProbe.Parser

namespace TypeProbe

/-- The faults so far are in order, and there is one if a node stands in for something missing. -/
structure ParseState.Faithful (length : Nat) (s : ParseState) : Prop where
  /-- The tokens are in order. -/
  cursor : Cursor length s
  /-- The names before the parser have text. -/
  named : ∀ t ∈ s.tokens, t.lexeme ≠ .identifier ""
  /-- Each fault starts behind the one before it. -/
  increasing : s.diagnostics.Pairwise fun d e => e.range.start < d.range.start
  /-- No fault starts behind the next token. -/
  before : ∀ d ∈ s.diagnostics, d.range.start ≤ s.current.start
  /-- Without a fault no node stands in for anything. -/
  reported : s.diagnostics = [] → ∀ i form, s.arena.form? i = some form → form.standsIn = false

/-- Parentheses do not make a node stand in for something. -/
@[simp] theorem Form.standsIn_parenthesize (form : Form) :
    form.parenthesize.standsIn = form.standsIn := by
  cases form <;> rfl

/-- The forms after a node is widened. -/
theorem Arena.form?_widened (a : Arena) (i : NodeId) (start stop : Nat) (j : NodeId) :
    (a.widened i start stop).form? j =
      if i = j then (a.form? j).map Form.parenthesize else a.form? j := by
  unfold form?
  rw [get?_widened]
  split
  · rw [Option.map_map, Option.map_map]
    rfl
  · rfl

namespace ParseState.Faithful

variable {length : Nat} {s t : ParseState}

/-- What has no part in faults may change. -/
theorem same (h : s.Faithful length) (hcurrent : t.current = s.current)
    (hfollowing : t.following = s.following) (hprevious : t.previousStop = s.previousStop)
    (harena : t.arena = s.arena) (hdiagnostics : t.diagnostics = s.diagnostics) :
    t.Faithful length := by
  obtain ⟨hcursor, hnamed, hincreasing, hbefore, hreported⟩ := h
  obtain ⟨hordered, hstop, hends⟩ := hcursor
  rw [ParseState.tokens] at hnamed
  rw [← hcurrent, ← hfollowing] at hordered hends hnamed
  rw [← hcurrent, ← hprevious] at hstop
  rw [← hdiagnostics] at hincreasing hbefore hreported
  rw [← hcurrent] at hbefore
  rw [← harena] at hreported
  exact ⟨⟨hordered, hstop, hends⟩, hnamed, hincreasing, hbefore, hreported⟩

/-- A token may be taken. -/
theorem advanced (h : s.Faithful length) : (Parser.advanced s).Faithful length := by
  obtain ⟨hcursor, hstop⟩ := h.cursor.advanced
  obtain ⟨taken, htaken, -⟩ := (ParseState.Passes.advanced s).taken
  refine ⟨hcursor, fun t ht => h.named t ?_, ?_, fun d hd => ?_, ?_⟩
  · rw [htaken]
    exact List.mem_append_right taken ht
  · rw [diagnostics_advanced]
    exact h.increasing
  · rw [diagnostics_advanced] at hd
    exact Nat.le_trans (h.before d hd) (Nat.le_trans s.current.range.start_le_stop hstop)
  · rw [diagnostics_advanced, arena_advanced]
    exact h.reported

/-- A fault may be noted that is behind the others but not behind the next token. -/
theorem faultAt (h : s.Faithful length) {range : TextRange} (f : SyntaxFault)
    (hlast : ∀ d ∈ s.diagnostics, d.range.start ≤ range.start)
    (hnext : range.start ≤ s.current.start) :
    ((Parser.faultAt range f).run s).2.Faithful length := by
  show (if _ then s else _ : ParseState).Faithful length
  by_cases hhead : s.diagnostics.head?.map (·.range.start) = some range.start
  · rw [if_pos hhead]
    exact h
  · rw [if_neg hhead]
    refine ⟨⟨h.cursor.ordered, h.cursor.previous, h.cursor.ends⟩, h.named,
      List.pairwise_cons.2 ⟨fun d hd => ?_, h.increasing⟩, ?_, nofun⟩
    · -- The last fault is the only one that could be at the same place.
      have hfirst : ∃ e ∈ s.diagnostics.head?, d.range.start ≤ e.range.start := by
        cases hfaults : s.diagnostics with
        | nil =>
          rw [hfaults] at hd
          cases hd
        | cons e faults =>
          have hincreasing := h.increasing
          rw [hfaults, List.pairwise_cons] at hincreasing
          rw [hfaults] at hd
          refine ⟨e, rfl, ?_⟩
          rcases List.mem_cons.1 hd with rfl | hd
          · exact Nat.le_refl _
          · exact Nat.le_of_lt (hincreasing.1 d hd)
      obtain ⟨e, he, hle⟩ := hfirst
      refine Nat.lt_of_le_of_lt hle (Nat.lt_of_le_of_ne (hlast e (List.mem_of_mem_head? he)) ?_)
      intro heq
      rw [Option.mem_def.1 he, Option.map_some, heq] at hhead
      exact hhead rfl
    · intro d hd
      rcases List.mem_cons.1 hd with rfl | hd
      · exact hnext
      · exact h.before d hd

/-- A node may be added that stands in for nothing, unless there is a fault. -/
theorem add (h : s.Faithful length) {start stop : Nat} {form : Form}
    (hform : form.standsIn = true → s.diagnostics ≠ []) :
    ParseState.Faithful length { s with arena := (s.arena.add start stop form).2 } := by
  refine ⟨⟨h.cursor.ordered, h.cursor.previous, h.cursor.ends⟩, h.named, h.increasing, h.before,
    fun hnone i form' hform' => ?_⟩
  rw [Arena.form?_add] at hform'
  split at hform'
  · obtain rfl := Option.some.inj hform'
    exact Bool.eq_false_iff.2 fun hstands => hform hstands hnone
  · exact h.reported hnone i form' hform'

/-- A node may be widened. -/
theorem widened (h : s.Faithful length) {i start stop : Nat} {owned : Bool} :
    ParseState.Faithful length
      { s with arena := s.arena.widened i start stop, widenedOwned := owned } := by
  refine ⟨⟨h.cursor.ordered, h.cursor.previous, h.cursor.ends⟩, h.named, h.increasing, h.before,
    fun hnone j form hform => ?_⟩
  rw [Arena.form?_widened] at hform
  split at hform
  · obtain ⟨form', hform', rfl⟩ := Option.map_eq_some_iff.1 hform
    rw [Form.standsIn_parenthesize]
    exact h.reported hnone j form' hform'
  · exact h.reported hnone j form hform

end ParseState.Faithful

/-- Faults are noted at the next token, or where one stood that ended a block. -/
theorem Parser.diagnostics_faultAt (s : ParseState) (range : TextRange) (f : SyntaxFault) :
    s.diagnostics <:+ ((faultAt range f).run s).2.diagnostics ∧
      ((faultAt range f).run s).2.diagnostics ≠ [] := by
  show s.diagnostics <:+ (if _ then s else _ : ParseState).diagnostics ∧
    (if _ then s else _ : ParseState).diagnostics ≠ []
  split
  · rename_i hhead
    refine ⟨List.suffix_refl _, fun hnil => ?_⟩
    rw [hnil] at hhead
    cases hhead
  · exact ⟨List.suffix_cons _ _, List.cons_ne_nil _ _⟩

/-- Faults stay, and stay in order. -/
def Course.faithful (length : Nat) : Course where
  Leads s t := s.diagnostics <:+ t.diagnostics ∧ (s.Faithful length → t.Faithful length)
  Faulty s := s.diagnostics ≠ []
  Allows _ := True
  refl s := ⟨List.suffix_refl _, id⟩
  trans hst htu := ⟨hst.1.trans htu.1, htu.2 ∘ hst.2⟩
  faulty hst hs hnil := hs (List.suffix_nil.1 (hnil ▸ hst.1))
  advanced s := ⟨diagnostics_advanced s ▸ List.suffix_refl _, .advanced⟩
  fault s f := ⟨(diagnostics_faultAt s s.current.range f).1,
    fun h => h.faultAt f h.before (Nat.le_refl _)⟩
  faulty_fault s f := (diagnostics_faultAt s s.current.range f).2
  add s _ _ _ _ hform := ⟨List.suffix_refl _, fun h => h.add hform⟩
  allows _ _ := trivial
  title s hkind := by
    refine ⟨diagnostics_advanced s ▸ List.suffix_refl _, fun h => h.advanced.add fun hstands => ?_⟩
    have htext := h.named s.current List.mem_cons_self
    obtain ⟨⟨range, lexeme⟩⟩ := s
    cases lexeme with
    | identifier name => exact absurd (congrArg Lexeme.identifier (eq_of_beq hstands)) htext
    | _ => cases hkind
  number s _ _ := ⟨diagnostics_advanced s ▸ List.suffix_refl _,
    fun h => h.advanced.add fun hstands => by cases hstands⟩
  widened s _ _ _ _ := ⟨List.suffix_refl _, fun h => h.widened⟩
  deeper h := ⟨h.1, fun hs => (h.2 (hs.same rfl rfl rfl rfl rfl)).same rfl rfl rfl rfl rfl⟩

theorem Course.faithful_blocks (length : Nat) : (Course.faithful length).Blocks where
  allows _ := trivial
  unmatched s f _ := by
    obtain ⟨hgrow, -⟩ := Parser.diagnostics_faultAt (Parser.advanced s) s.current.range f
    rw [diagnostics_advanced] at hgrow
    refine ⟨hgrow, fun h => h.advanced.faultAt f (fun d hd => ?_) ?_⟩
    · rw [diagnostics_advanced] at hd
      exact h.before d hd
    · exact Nat.le_trans s.current.range.start_le_stop h.cursor.advanced.2

/-- A rule that is out of bounds notes it. -/
def Rule.tooDeep : Rules := fun rule => do
  fault .tooDeep
  errorNode .maxDepthExceeded rule.given?

namespace ParsedText

/-- Before the first token there is no fault and no node. -/
theorem faithful_initialState (text : List Char) :
    (initialState (byteLength text) (Tokens.ofText text)).Faithful (byteLength text) := by
  obtain ⟨hall, -, front, htokens, hfront⟩ := inText_initialState text
  refine ⟨⟨?_, Nat.zero_le _, front, hfront, htokens⟩, ?_, .nil, nofun, fun _ i form hform => ?_⟩
  · have hordered := (Tokens.tiles_ofText text).1.pairwise
    rw [← hall] at hordered
    exact hordered
  · rw [hall]
    exact Tokens.ofText_hasTexts text
  · cases hform

/-- The parser of a text ends with faults that are in order. -/
theorem ofText_faithful (text : String) : ∃ s : ParseState, s.Faithful (byteLength text.toList) ∧
    (ofText text).arena = s.arena ∧ (ofText text).diagnostics = s.diagnostics.reverse := by
  obtain ⟨-, -, -, harena, hdiagnostics⟩ :=
    module_parseElse text Rule.tooDeep [] (Nat.le_refl _)
  have hblocks := Course.faithful_blocks (byteLength text.toList)
  have hdeep : ∀ rule, Keeps (Course.faithful (byteLength text.toList)) (Rule.tooDeep rule) :=
    fun rule => Keeps.mend (Mends.errorNode _ _)
  obtain ⟨-, hkept⟩ := Keeps.module hblocks
    (Rule.parseElse_keep hblocks hdeep (callLimit (Tokens.ofText text.toList).length))
    (byteLength text.toList) (initialState (byteLength text.toList) (Tokens.ofText text.toList))
  rw [List.append_nil] at harena hdiagnostics
  refine ⟨_, hkept (faithful_initialState text.toList), harena.symm, ?_⟩
  rw [← hdiagnostics]

/-- In the tree of a text without faults no node stands in for anything. -/
theorem standsIn_of_diagnostics {text : String} (h : (ofText text).diagnostics = []) {i : NodeId}
    {form : Form} (hform : (ofText text).arena.form? i = some form) : form.standsIn = false := by
  obtain ⟨s, hfaithful, harena, hdiagnostics⟩ := ofText_faithful text
  rw [harena] at hform
  exact hfaithful.reported (List.reverse_eq_nil_iff.1 (hdiagnostics.symm.trans h)) i form hform

/-- The faults of a text start one behind the other and within the text, and a tree in which an
error or a name without text stands in for something missing has faults. -/
theorem ofText_reports (text : String) :
    (ofText text).diagnostics.Pairwise (fun d e => d.range.start < e.range.start) ∧
      (∀ d ∈ (ofText text).diagnostics, d.range.start ≤ byteLength text.toList) ∧
      ∀ i, ((∃ category child, (ofText text).arena.form? i = some (.error category child)) ∨
          ∃ token, (ofText text).arena.form? i = some (.name token "")) →
        (ofText text).diagnostics ≠ [] := by
  obtain ⟨s, hfaithful, -, hdiagnostics⟩ := ofText_faithful text
  refine ⟨?_, fun d hd => ?_, fun i hstands hnone => ?_⟩
  · rw [hdiagnostics]
    exact List.pairwise_reverse.2 hfaithful.increasing
  · rw [hdiagnostics] at hd
    exact Nat.le_trans (hfaithful.before d (List.mem_reverse.1 hd)) hfaithful.cursor.start_le
  · rcases hstands with ⟨category, child, hform⟩ | ⟨token, hform⟩
    · exact Bool.false_ne_true (standsIn_of_diagnostics hnone hform).symm
    · exact Bool.false_ne_true (standsIn_of_diagnostics hnone hform).symm

end ParsedText

end TypeProbe
