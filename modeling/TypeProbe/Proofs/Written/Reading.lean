import TypeProbe.Proofs.Joined.Lines
import TypeProbe.Proofs.Tree.Arena
import TypeProbe.Tree.Grammar.Parser

/-!
# Parsers that go from place to place

What a parser does is told by the lexemes that are left (`ParseState.upcoming`): `Reads p s left Q`
says that `p` goes on from `s` to where `left` is left, notes nothing, keeps the nodes that are
there, and has a result of which `Q` holds. One rule for each step that the grammar is written with,
and `Folds` for what is repeated as long as it goes on.
-/

open TypeProbe.Parser

namespace TypeProbe

variable {α β : Type}

/-! ## Places -/

/-- The lexemes of the tokens that are left. -/
def ParseState.upcoming (s : ParseState) : List Lexeme :=
  (s.current :: s.following).map Token.lexeme

/-- A second note that a construct stands between parentheses changes nothing. -/
theorem Form.parenthesize_parenthesize (form : Form) :
    form.parenthesize.parenthesize = form.parenthesize := by
  cases form <;> rfl

/-- The nodes of an arena are there in another one, where some may be noted to stand between
parentheses. -/
def Arena.Keeps (a a' : Arena) : Prop :=
  ∀ id form, a.form? id = some form →
    a'.form? id = some form ∨ a'.form? id = some form.parenthesize

namespace Arena.Keeps

variable {a a' a'' : Arena}

/-- An arena keeps its nodes. -/
theorem refl (a : Arena) : a.Keeps a := fun _ _ h => .inl h

/-- What is kept twice is kept. -/
theorem trans (h : a.Keeps a') (h' : a'.Keeps a'') : a.Keeps a'' := by
  intro id form hform
  rcases h id form hform with hsame | hnoted
  · exact h' id form hsame
  · rcases h' id _ hnoted with hsame | hnoted
    · exact .inr hsame
    · rw [Form.parenthesize_parenthesize] at hnoted
      exact .inr hnoted

/-- A new node leaves the others. -/
theorem add (a : Arena) (start stop : Nat) (form : Form) : a.Keeps (a.add start stop form).2 := by
  intro id form' hform
  left
  rw [form?_add, if_neg (Nat.ne_of_lt (lt_size_of_form? hform)), hform]

/-- Parentheses around a node leave all nodes but for the note. -/
theorem widened (a : Arena) (i : NodeId) (start stop : Nat) :
    a.Keeps (a.widened i start stop) := by
  intro id form hform
  unfold form? at hform ⊢
  rw [get?_widened]
  split
  · obtain ⟨n, hn, rfl⟩ := Option.map_eq_some_iff.1 hform
    right
    rw [hn]
    rfl
  · exact .inl hform

end Arena.Keeps

/-- A parser has gone from one state to another one, where some lexemes are left. It has noted
nothing, kept the nodes, and left the nested expressions that it has entered. -/
structure ParseState.GoesTo (s s' : ParseState) (left : List Lexeme) : Prop where
  /-- What is left. -/
  upcoming : s'.upcoming = left
  /-- The nested expressions have been left. -/
  depth : s'.depth = s.depth
  /-- Nothing has been noted. -/
  diagnostics : s'.diagnostics = s.diagnostics
  /-- The nodes have been kept. -/
  keeps : s.arena.Keeps s'.arena

namespace ParseState

variable {s s' s'' : ParseState} {left left' : List Lexeme} {x y : Lexeme}

/-- The state one nested expression further in. -/
def deeper (s : ParseState) : ParseState := { s with depth := s.depth + 1 }

/-- A parser may stay where it is. -/
theorem GoesTo.refl (h : s.upcoming = left) : s.GoesTo s left := ⟨h, rfl, rfl, .refl _⟩

/-- A parser that has gone on may go on. -/
theorem GoesTo.trans (h : s.GoesTo s' left) (h' : s'.GoesTo s'' left') : s.GoesTo s'' left' :=
  ⟨h'.upcoming, h'.depth.trans h.depth, h'.diagnostics.trans h.diagnostics, h.keeps.trans h'.keeps⟩

/-- The next token has the first lexeme that is left. -/
theorem lexeme_current (h : s.upcoming = x :: left) : s.current.lexeme = x := (List.cons.inj h).1

/-- The token after the next one has the second lexeme that is left. -/
theorem lexeme_second (h : s.upcoming = x :: y :: left) :
    (s.following.headD s.current).lexeme = y := by
  obtain ⟨current, following, previousStop, arena, diagnostics, depth, widened⟩ := s
  cases following with
  | nil => cases (List.cons.inj h).2
  | cons next rest => exact (List.cons.inj (List.cons.inj h).2).1

/-- The tokens behind the next one have the lexemes behind the first. -/
theorem length_following (h : s.upcoming = x :: left) : s.following.length = left.length := by
  rw [← (List.cons.inj h).2, List.length_map]

/-- Behind the next token one lexeme less is left. -/
theorem goesTo_advanced (h : s.upcoming = x :: y :: left) (hx : x ≠ .endOfStream) :
    s.GoesTo (advanced s) (y :: left) := by
  obtain ⟨current, following, previousStop, arena, diagnostics, depth, widenedOwned⟩ := s
  cases following with
  | nil => cases (List.cons.inj h).2
  | cons next rest =>
    have hkind : ¬ current.kind = .endOfStream := by
      rw [Token.kind, show current.lexeme = x from (List.cons.inj h).1]
      exact fun hkind => hx (Lexeme.eq_endOfStream hkind)
    simp only [advanced, if_neg hkind]
    exact ⟨(List.cons.inj h).2, rfl, rfl, .refl _⟩

end ParseState

/-! ## Readings -/

/-- A parser goes from a state to where some lexemes are left, notes nothing, keeps the nodes, and
has a result of which something holds. -/
def Parser.Reads (p : Parser α) (s : ParseState) (left : List Lexeme) (Q : α → Arena → Prop) :
    Prop :=
  ∃ a s', p.run s = (a, s') ∧ s.GoesTo s' left ∧ Q a s'.arena

/-- Below the limit an expression is read one level further in. -/
theorem Parser.run_nested {inner : Parser NodeId} {s s' : ParseState} {id : NodeId}
    (hdepth : s.depth < depthLimit) (h : inner.run s.deeper = (id, s')) :
    (Parser.nested inner).run s = (id, { s' with depth := s'.depth - 1 }) := by
  have hlimit : ¬ depthLimit ≤ s.depth := Nat.not_le.2 hdepth
  unfold Parser.nested
  rw [StateT.run_bind]
  show StateT.run (if depthLimit ≤ s.depth then _ else _) s = _
  rw [if_neg hlimit, StateT.run_bind]
  show StateT.run (inner >>= _) s.deeper = _
  rw [StateT.run_bind, h]
  rfl

namespace Parser.Reads

variable {p : Parser α} {f : α → Parser β} {s : ParseState} {left mid : List Lexeme}
variable {x y : Lexeme} {Q : α → Arena → Prop} {R : β → Arena → Prop}

/-- A parser may stay where it is with a result. -/
theorem ret {a : α} (hs : s.upcoming = left) (h : Q a s.arena) : Reads (pure a) s left Q :=
  ⟨a, s, rfl, .refl hs, h⟩

/-- Two parsers after each other go on from where the first one has gone. -/
theorem bind (hp : Reads p s mid Q)
    (hf : ∀ a s', s.GoesTo s' mid → Q a s'.arena → Reads (f a) s' left R) :
    Reads (p >>= f) s left R := by
  obtain ⟨a, s', hrun, hgoes, hQ⟩ := hp
  obtain ⟨b, s'', hrun', hgoes', hR⟩ := hf a s' hgoes hQ
  refine ⟨b, s'', ?_, hgoes.trans hgoes', hR⟩
  rw [StateT.run_bind, hrun]
  exact hrun'

/-- A look at the state leaves it. -/
theorem look {a : α} (hp : p.run s = (a, s)) (hf : Reads (f a) s left R) :
    Reads (p >>= f) s left R := by
  obtain ⟨b, s', hrun, hR⟩ := hf
  refine ⟨b, s', ?_, hR⟩
  rw [StateT.run_bind, hp]
  exact hrun

/-- A result may be forgotten in part. -/
theorem weaken (hp : Reads p s left Q) {Q' : α → Arena → Prop} (h : ∀ a b, Q a b → Q' a b) :
    Reads p s left Q' := by
  obtain ⟨a, s', hrun, hgoes, hQ⟩ := hp
  exact ⟨a, s', hrun, hgoes, h _ _ hQ⟩

/-- What does the same reads the same. -/
theorem congr {q : Parser α} (h : q.run s = p.run s) (hp : Reads p s left Q) :
    Reads q s left Q := by
  obtain ⟨a, s', hrun, hgoes, hQ⟩ := hp
  exact ⟨a, s', h.trans hrun, hgoes, hQ⟩

/-- The next token may be taken. -/
theorem advance (hs : s.upcoming = x :: y :: left) (hx : x ≠ .endOfStream) :
    Reads Parser.advance s (y :: left) fun t _ => t = s.current :=
  ⟨s.current, advanced s, rfl, s.goesTo_advanced hs hx, rfl⟩

/-- A token that fits is taken. -/
theorem advanceIf {fits : Bool} (hfits : fits = true) (hs : s.upcoming = x :: y :: left)
    (hx : x ≠ .endOfStream) :
    Reads (Parser.advanceIf fits) s (y :: left) fun t _ => t = some s.current := by
  subst hfits
  exact ⟨some s.current, advanced s, rfl, s.goesTo_advanced hs hx, rfl⟩

/-- A keyword is taken where it stands. -/
theorem consumeKeyword {k : Keyword} (hs : s.upcoming = .keyword k :: y :: left) :
    Reads (Parser.consumeKeyword k) s (y :: left) fun t _ => t = some s.current := by
  refine look rfl (advanceIf ?_ hs nofun)
  rw [Token.keyword?, s.lexeme_current hs]
  exact beq_self_eq_true _

/-- An operator is taken where it stands. -/
theorem consumeOperator {op : Operator} (hs : s.upcoming = .operator op :: y :: left) :
    Reads (Parser.consumeOperator op) s (y :: left) fun t _ => t = some s.current := by
  refine look rfl (advanceIf ?_ hs nofun)
  rw [Token.operator?, s.lexeme_current hs]
  exact beq_self_eq_true _

/-- A token is taken where one of its kind stands. -/
theorem consume {kind : TokenKind} (hs : s.upcoming = x :: y :: left) (hkind : x.kind = kind)
    (hx : x ≠ .endOfStream) :
    Reads (Parser.consume kind) s (y :: left) fun t _ => t = some s.current := by
  refine look rfl (advanceIf ?_ hs hx)
  rw [Token.kind, s.lexeme_current hs, hkind]
  exact beq_self_eq_true _

/-- A token is taken where one of its kind stands, and this is told. -/
theorem took {kind : TokenKind} (hs : s.upcoming = x :: y :: left) (hkind : x.kind = kind)
    (hx : x ≠ .endOfStream) : Reads (Parser.took kind) s (y :: left) fun b _ => b = true := by
  refine bind (consume hs hkind hx) fun t s' hgoes ht => ret hgoes.upcoming ?_
  rw [ht]
  rfl

/-- A keyword is taken where it stands, and this is told. -/
theorem tookKeyword {k : Keyword} (hs : s.upcoming = .keyword k :: y :: left) :
    Reads (Parser.tookKeyword k) s (y :: left) fun b _ => b = true := by
  refine bind (consumeKeyword hs) fun t s' hgoes ht => ret hgoes.upcoming ?_
  rw [ht]
  rfl

/-- A new node has its form, and the others are kept. -/
theorem addNode (start stop : Nat) (form : Form) (hs : s.upcoming = left) :
    Reads (Parser.addNode start stop form) s left fun id a =>
      a.form? id = some form ∧ s.arena.Keeps a := by
  have hkeeps := Arena.Keeps.add s.arena start stop form
  refine ⟨s.arena.size, { s with arena := (s.arena.add start stop form).2 }, rfl,
    ⟨hs, rfl, rfl, hkeeps⟩, ?_, hkeeps⟩
  show (s.arena.add start stop form).2.form? s.arena.size = some form
  rw [Arena.form?_add, if_pos rfl]

/-- A new node up to the last token has its form, and the others are kept. -/
theorem node (start : Nat) (form : Form) (hs : s.upcoming = left) :
    Reads (Parser.node start form) s left fun id a =>
      a.form? id = some form ∧ s.arena.Keeps a :=
  look rfl (addNode _ _ _ hs)

/-- An expression one level further in is read as it is, below the limit. -/
theorem nested {inner : Parser NodeId} {Q : NodeId → Arena → Prop} (hdepth : s.depth < depthLimit)
    (h : Reads inner s.deeper left Q) :
    Reads (Parser.nested inner) s left Q := by
  obtain ⟨id, s', hrun, hgoes, hQ⟩ := h
  refine ⟨id, { s' with depth := s'.depth - 1 }, run_nested hdepth hrun, ⟨hgoes.upcoming, ?_,
    hgoes.diagnostics, hgoes.keeps⟩, hQ⟩
  show s'.depth - 1 = s.depth
  rw [hgoes.depth]
  rfl

end Parser.Reads

/-! ## Looks at the next token -/

namespace Parser

variable {s : ParseState} {left : List Lexeme} {x : Lexeme}

/-- The keyword of a token is that of its lexeme. -/
theorem keyword?_eq_some_iff {t : Token} {k : Keyword} :
    t.keyword? = some k ↔ t.lexeme = .keyword k := by
  unfold Token.keyword?
  split
  · simp_all
  · simp_all

/-- The operator of a token is that of its lexeme. -/
theorem operator?_eq_some_iff {t : Token} {op : Operator} :
    t.operator? = some op ↔ t.lexeme = .operator op := by
  unfold Token.operator?
  split
  · simp_all
  · simp_all

/-- A keyword is not taken where another lexeme stands. -/
theorem run_consumeKeyword {k : Keyword} (hs : s.upcoming = x :: left) (hx : x ≠ .keyword k) :
    (consumeKeyword k).run s = (none, s) := by
  have htest : (s.current.keyword? == some k) = false := by
    rw [beq_eq_false_iff_ne, ne_eq, keyword?_eq_some_iff, s.lexeme_current hs]
    exact hx
  show (advanceIf (s.current.keyword? == some k)).run s = _
  rw [htest]
  rfl

/-- An operator is not taken where another lexeme stands. -/
theorem run_consumeOperator {op : Operator} (hs : s.upcoming = x :: left) (hx : x ≠ .operator op) :
    (consumeOperator op).run s = (none, s) := by
  have htest : (s.current.operator? == some op) = false := by
    rw [beq_eq_false_iff_ne, ne_eq, operator?_eq_some_iff, s.lexeme_current hs]
    exact hx
  show (advanceIf (s.current.operator? == some op)).run s = _
  rw [htest]
  rfl

/-- It is told where a keyword is not taken. -/
theorem run_tookKeyword {k : Keyword} (hs : s.upcoming = x :: left) (hx : x ≠ .keyword k) :
    (tookKeyword k).run s = (false, s) := by
  unfold tookKeyword
  rw [StateT.run_bind, run_consumeKeyword hs hx]
  rfl

/-- It is told where an operator is not taken. -/
theorem run_tookOperator {op : Operator} (hs : s.upcoming = x :: left) (hx : x ≠ .operator op) :
    (tookOperator op).run s = (false, s) := by
  unfold tookOperator
  rw [StateT.run_bind, run_consumeOperator hs hx]
  rfl

/-- Whether the next token is of a kind shows on its lexeme. -/
theorem run_at (kind : TokenKind) (hs : s.upcoming = x :: left) :
    («at» kind).run s = (x.kind == kind, s) := by
  rw [← s.lexeme_current hs]
  rfl

/-- Whether the next token is a keyword shows on its lexeme. -/
theorem run_atKeyword {k : Keyword} (hs : s.upcoming = x :: left) (hx : x ≠ .keyword k) :
    (atKeyword k).run s = (false, s) := by
  have htest : (s.current.keyword? == some k) = false := by
    rw [beq_eq_false_iff_ne, ne_eq, keyword?_eq_some_iff, s.lexeme_current hs]
    exact hx
  show ((s.current.keyword? == some k), s) = _
  rw [htest]

/-- It is told where no token of a kind is taken. -/
theorem run_took {kind : TokenKind} (hs : s.upcoming = x :: left) (hx : x.kind ≠ kind) :
    (took kind).run s = (false, s) := by
  have htest : (s.current.kind == kind) = false := by
    rw [beq_eq_false_iff_ne, ne_eq, Token.kind, s.lexeme_current hs]
    exact hx
  show ((advanceIf (s.current.kind == kind)).run s |>.1.isSome, _) = _
  rw [htest]
  rfl

end Parser

/-! ## What is repeated -/

/-- A step is repeated on its own result until it yields nothing, and takes tokens each time. -/
inductive Parser.Folds (step : α → Parser (Option α)) :
    α → ParseState → α → ParseState → Prop where
  | stop {a : α} {s s' : ParseState} (h : (step a).run s = (none, s')) : Folds step a s a s'
  | next {a b c : α} {s s' s'' : ParseState} (h : (step a).run s = (some b, s'))
    (hless : s'.following.length < s.following.length) (hrest : Folds step b s' c s'') :
    Folds step a s c s''

namespace Parser.Folds

variable {step : α → Parser (Option α)} {a c : α} {s s' : ParseState}

/-- As many rounds as tokens are left suffice. -/
theorem run_foldAtMost (h : Folds step a s c s') {fuel : Nat} (hfuel : s.following.length < fuel) :
    (foldAtMost step fuel a).run s = (c, s') := by
  induction h generalizing fuel with
  | stop h =>
    obtain ⟨fuel, rfl⟩ := Nat.exists_eq_add_of_le' (Nat.le_trans (Nat.le_add_left 1 _) hfuel)
    rw [foldAtMost, StateT.run_bind, h]
    rfl
  | next h hless hrest ih =>
    obtain ⟨fuel, rfl⟩ := Nat.exists_eq_add_of_le' (Nat.le_trans (Nat.le_add_left 1 _) hfuel)
    rw [foldAtMost, StateT.run_bind, h]
    exact ih (Nat.lt_of_lt_of_le hless (Nat.le_of_lt_succ hfuel))

/-- The rounds that the parsers allow suffice. -/
theorem run_foldMany (h : Folds step a s c s') : (foldMany a step).run s = (c, s') := by
  unfold foldMany
  cases h with
  | stop h =>
    rw [StateT.run_bind, h]
    rfl
  | next h hless hrest =>
    rw [StateT.run_bind, h]
    exact hrest.run_foldAtMost (Nat.lt_succ_self _)

end Parser.Folds

end TypeProbe
