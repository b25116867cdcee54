import TypeProbe.Proofs.Faults

/-!
# Names and numbers stand where their tokens do

A node for a name with text or for a number is only added where a token is taken that says the same,
and it takes the room of this token. Nodes that are widened take more of it. So in the tree of every
text such a node has the token that it comes from within it (`ParsedText.exists_token`); a name with
text, above all, stops behind its start (`ParsedText.lt_of_name`).
-/

open TypeProbe.Parser

namespace TypeProbe

/-- A token says what a construct says, and lies within a range. -/
def Token.Says (t : Token) (x : Lexeme) (r : TextRange) : Prop :=
  t.lexeme = x ∧ r.start ≤ t.start ∧ t.stop ≤ r.stop

/-- The tokens before a parser are some of the given ones, and so are those that names with text and
numbers in its tree come from. -/
structure ParseState.Spelled (T : List Token) (s : ParseState) : Prop where
  /-- The tokens before the parser are among the given ones. -/
  tokens : ∀ t ∈ s.tokens, t ∈ T
  /-- What says the same as a token has it within its range. -/
  nodes : ∀ n form x r, s.arena.form? n = some form → form.lexeme? = some x →
    s.arena.range? n = some r → ∃ t ∈ T, t.Says x r

/-- Parentheses do not make a node say something else. -/
@[simp] theorem Form.lexeme?_parenthesize (form : Form) :
    form.parenthesize.lexeme? = form.lexeme? := by
  cases form <;> rfl

/-- What says the same as a token has no parts. -/
theorem Form.children_of_lexeme? {form : Form} {x : Lexeme} (h : form.lexeme? = some x) :
    form.children = [] := by
  cases form <;> first | rfl | cases h

/-- A name with text says it. -/
theorem Form.lexeme?_name (token : Token) {value : String} (h : value ≠ "") :
    (Form.name token value).lexeme? = some (.identifier value) :=
  if_neg (beq_eq_false_iff_ne.2 h ▸ Bool.false_ne_true)

namespace ParseState.Spelled

variable {T : List Token} {s t : ParseState} {start stop : Nat} {form : Form}

/-- What has no part in tokens and nodes may change. -/
theorem same (h : s.Spelled T) (htokens : t.tokens = s.tokens) (harena : t.arena = s.arena) :
    t.Spelled T := ⟨htokens ▸ h.tokens, harena ▸ h.nodes⟩

/-- A token may be taken. -/
theorem advanced (h : s.Spelled T) : (Parser.advanced s).Spelled T := by
  obtain ⟨taken, htaken, -⟩ := (ParseState.Passes.advanced s).taken
  refine ⟨fun t ht => h.tokens t ?_, (arena_advanced s).symm ▸ h.nodes⟩
  rw [htaken]
  exact List.mem_append_right taken ht

/-- A fault may be noted. -/
theorem faultAt (h : s.Spelled T) (range : TextRange) (f : SyntaxFault) :
    ((Parser.faultAt range f).run s).2.Spelled T := by
  show (if _ then s else _ : ParseState).Spelled T
  split
  · exact h
  · exact h.same rfl rfl

/-- A node may be added, if a token within it says what it does. -/
theorem add (h : s.Spelled T)
    (hform : ∀ x, form.lexeme? = some x → ∃ t ∈ T, t.lexeme = x ∧ start ≤ t.start ∧ t.stop ≤ stop) :
    ParseState.Spelled T { s with arena := (s.arena.add start stop form).2 } := by
  refine ⟨h.tokens, fun n form' x r hform' hlexeme hr => ?_⟩
  rw [Arena.form?_add] at hform'
  rw [Arena.range?_add] at hr
  split at hform'
  · obtain rfl := Option.some.inj hform'
    rw [if_pos ‹_›, Form.children_of_lexeme? hlexeme] at hr
    obtain rfl := Option.some.inj hr
    obtain ⟨t, ht, hsays, hstart, hstop⟩ := hform x hlexeme
    refine ⟨t, ht, hsays, hstart, ?_⟩
    show t.stop ≤ start + (max stop start - start)
    omega
  · rw [if_neg ‹_›] at hr
    exact h.nodes n form' x r hform' hlexeme hr

/-- A node may be widened. -/
theorem widened (h : s.Spelled T) {i : NodeId} {owned : Bool} : ParseState.Spelled T
    { s with arena := s.arena.widened i start stop, widenedOwned := owned } := by
  refine ⟨h.tokens, fun n form x r hform hlexeme hr => ?_⟩
  rw [Arena.form?_widened] at hform
  rw [Arena.range?_widened] at hr
  split at hform
  · obtain ⟨form', hform', rfl⟩ := Option.map_eq_some_iff.1 hform
    rw [if_pos ‹_›] at hr
    obtain ⟨r', hr', rfl⟩ := Option.map_eq_some_iff.1 hr
    obtain ⟨t, ht, hsays, hstart, hstop⟩ :=
      h.nodes n form' x r' hform' (Form.lexeme?_parenthesize form' ▸ hlexeme) hr'
    refine ⟨t, ht, hsays, Nat.le_trans (Nat.min_le_left _ _) hstart, ?_⟩
    show t.stop ≤ min r'.start start + (max r'.stop stop - min r'.start start)
    omega
  · rw [if_neg ‹_›] at hr
    exact h.nodes n form x r hform hlexeme hr

/-- A token may be taken, and a node added that says what it does. -/
theorem taken (h : s.Spelled T) (hform : ∀ x, form.lexeme? = some x → s.current.lexeme = x) :
    ((tokenNode s.current form).run (Parser.advanced s)).2.Spelled T :=
  h.advanced.add fun x hx =>
    ⟨s.current, h.tokens _ List.mem_cons_self, hform x hx, Nat.le_refl _, Nat.le_refl _⟩

end ParseState.Spelled

/-- Names with text and numbers come from tokens. -/
def Course.spelled (T : List Token) : Course where
  Leads s t := s.Spelled T → t.Spelled T
  Faulty _ := True
  Allows form := form.lexeme? = none
  refl _ := id
  trans hst htu := htu ∘ hst
  faulty _ h := h
  advanced _ := .advanced
  fault s f h := h.faultAt s.current.range f
  faulty_fault _ _ := trivial
  add _ _ _ _ hform _ h :=
    h.add fun x hx => absurd (hform.symm.trans hx) (Option.some_ne_none x).symm
  allows _ h := h
  title s hkind h := by
    refine h.taken fun x hx => ?_
    obtain ⟨⟨range, lexeme⟩⟩ := s
    cases lexeme with
    | identifier name =>
      simp only [Form.lexeme?] at hx
      split at hx
      · cases hx
      · exact Option.some.inj hx
    | _ => cases hkind
  number s literal hnumber h := h.taken fun x hx => hnumber.trans (Option.some.inj hx)
  widened _ _ _ _ _ h := h.widened
  deeper h hs := (h (hs.same rfl rfl)).same rfl rfl

theorem Course.spelled_blocks (T : List Token) : (Course.spelled T).Blocks where
  allows h := h
  unmatched s f _ h := h.advanced.faultAt s.current.range f

namespace ParsedText

variable {text : String} {n : NodeId} {r : TextRange}

/-- In the tree of a text a name with text and a number have a token within them that says the
same. -/
theorem exists_token {form : Form} {x : Lexeme} (hform : (ofText text).arena.form? n = some form)
    (hlexeme : form.lexeme? = some x) (hr : (ofText text).arena.range? n = some r) :
    ∃ t ∈ Tokens.ofText text.toList, t.Says x r := by
  have hblocks := Course.spelled_blocks (Tokens.ofText text.toList)
  have hrules := Rule.parse_keepBlocks hblocks (fun _ => trivial)
    (callLimit (Tokens.ofText text.toList).length)
  have hkept := Keeps.module hblocks hrules (byteLength text.toList)
    (initialState (byteLength text.toList) (Tokens.ofText text.toList))
  obtain ⟨hall, -⟩ := inText_initialState text.toList
  have hinitial : (initialState (byteLength text.toList)
      (Tokens.ofText text.toList)).Spelled (Tokens.ofText text.toList) :=
    ⟨fun t ht => hall ▸ ht, fun n form x r hform => by cases hform⟩
  exact (hkept hinitial).nodes n _ x r hform hlexeme hr

/-- In the tree of a text a name with text takes room. -/
theorem lt_of_name {token : Token} {value : String}
    (hform : (ofText text).arena.form? n = some (.name token value)) (hvalue : value ≠ "")
    (hr : (ofText text).arena.range? n = some r) : r.start < r.stop := by
  obtain ⟨t, ht, hsays, hstart, hstop⟩ :=
    exists_token hform (Form.lexeme?_name token hvalue) hr
  obtain ⟨-, hroom⟩ := Tokens.ofText_isSpelled text.toList t ht value hsays
  omega

end ParsedText

end TypeProbe
