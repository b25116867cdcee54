import TypeProbe.Proofs.Written.RoundTrip

/-!
# A line with an expression

A text that is one expression, written with blanks between its words or in any other way with the
same lexemes, has one statement, which is that expression, and nothing is wrong with it
(`ParsedText.ofText_expression`).
-/

open TypeProbe.Parser

namespace TypeProbe

namespace Grammar

variable {call : Rules} {s s' : ParseState} {left rest : List Lexeme} {x y : Lexeme} {id : NodeId}
variable {kind : NewLineKind}

/-- What opens an expression does not end one. -/
theorem endsExpression_of_opens (hs : s.upcoming = y :: rest) (hy : y.Opens 0) :
    endsExpression s.current = false := by
  unfold endsExpression
  rw [s.lexeme_current hs]
  obtain ⟨n, hn, -⟩ := hy
  cases y with
  | operator op => cases op <;> first | rfl | cases hn
  | _ => first | rfl | cases hn

/-- The only keyword that opens an expression is that of negations. -/
theorem keyword?_of_opens (hs : s.upcoming = y :: rest) (hy : y.Opens 0) :
    s.current.keyword? = none ∨ s.current.keyword? = some .not := by
  unfold Token.keyword?
  rw [s.lexeme_current hs]
  obtain ⟨n, hn, -⟩ := hy
  cases y with
  | keyword k => cases k <;> first | exact .inr rfl | cases hn
  | _ => exact .inl rfl

section Statements

variable (hs : s.upcoming = y :: rest) (hy : y.Opens 0) (hs' : s'.upcoming = .newLine kind :: left)
  (h : (call .test).run s = (id, s'))

include hs hy hs' h

/-- An expression up to the end of its line is no tuple. -/
theorem run_testList : (testList call).run s = (id, s') := by
  have hends : atExpressionEnd.run s = (false, s) := by
    show (endsExpression s.current, s) = _
    rw [endsExpression_of_opens hs hy]
  refine (run_bind_of (x := currentStart) rfl).trans ?_
  refine (run_bind_of hends).trans ?_
  refine (run_bind_of ((run_testOrStar hs hy).trans h)).trans ?_
  exact run_bind_of (run_at _ hs')

/-- An expression up to the end of its line is not assigned. -/
theorem run_expressionStatement : (expressionStatement call).run s = (id, s') := by
  have hassigned : (assigned call).run s = (id, s') :=
    (run_bind_of (run_atKeyword hs (hy.ne rfl))).trans (run_testList hs hy hs' h)
  have hnone : s'.current.operator? = none := by
    unfold Token.operator?
    rw [s'.lexeme_current hs']
  refine (run_bind_of (x := currentStart) rfl).trans ?_
  refine (run_bind_of hassigned).trans ?_
  refine (run_bind_of (run_took hs' (by simp [Lexeme.kind]))).trans ?_
  refine (run_bind_of (run_tookOperator hs' (by simp))).trans ?_
  refine (run_bind_of (x := peek) rfl).trans ?_
  rw [hnone]
  rfl

/-- An expression up to the end of its line is the statement of the line. -/
theorem run_lineStatement : (lineStatement call).run s = ((id, false), s') := by
  have hsimple : (simpleStatement call).run s = (id, s') := by
    refine (run_bind_of (x := peek) rfl).trans ?_
    rcases keyword?_of_opens hs hy with hk | hk <;> rw [hk] <;>
      exact run_expressionStatement hs hy hs' h
  have hline : atEndOfLine.run s' = (true, s') := by
    show (endsLine s'.current.lexeme.kind, s') = _
    rw [s'.lexeme_current hs']
    rfl
  refine (run_bind_of hsimple).trans ?_
  refine (run_bind_of (run_took hs' (by simp [Lexeme.kind]))).trans ?_
  exact run_bind_of hline

/-- The state behind a line of one statement. -/
def lineEnded (start : Nat) (id : NodeId) (s : ParseState) : ParseState :=
  advanced { s with arena := (s.arena.add start s.previousStop (.statementList [id])).2 }

/-- An expression and the end of its line are a line of one statement. -/
theorem run_statementList :
    (statementList call).run s = (s'.arena.size, lineEnded s.current.start id s') := by
  have hkind : s'.current.kind = .newLine := by
    rw [Token.kind, s'.lexeme_current hs']
    rfl
  refine (run_bind_of (x := currentStart) rfl).trans ?_
  refine (run_bind_of (run_lineStatement hs hy hs' h)).trans ?_
  refine (run_bind_of (Folds.run_foldMany (.stop rfl))).trans ?_
  refine (run_bind_of (x := node _ _) rfl).trans ?_
  refine (run_bind_of (x := consume .newLine) rfl).trans ?_
  show (s'.arena.size, ((advanceIf (s'.current.kind == .newLine)).run _).2) = _
  rw [hkind]
  rfl

/-- An expression and the end of its line are a statement. -/
theorem run_statement :
    (statement call).run s = (s'.arena.size, lineEnded s.current.start id s') := by
  have hlist := run_statementList hs hy hs' h
  refine (run_bind_of (x := peek) rfl).trans ?_
  simp only [s.lexeme_current hs]
  obtain ⟨m, hm, -⟩ := hy
  cases y with
  | operator op => cases op <;> first | exact hlist | cases hm
  | keyword k => cases k <;> first | exact hlist | cases hm
  | _ => exact hlist

end Statements

/-- Behind the end of the line the next one is left, and there is a node for the line. -/
theorem goesTo_lineEnded (start : Nat) (id : NodeId)
    (hs' : s'.upcoming = .newLine kind :: x :: left) :
    s'.GoesTo (lineEnded start id s') (x :: left) := by
  have hadded : s'.GoesTo { s' with arena := (s'.arena.add start s'.previousStop
      (.statementList [id])).2 } (.newLine kind :: x :: left) :=
    ⟨hs', rfl, rfl, Arena.Keeps.add _ _ _ _⟩
  exact hadded.trans (ParseState.goesTo_advanced hadded.upcoming (by simp))

/-- Nothing is an item at the end of a text. -/
theorem run_moduleItem_none (hs : s.upcoming = [.endOfStream]) :
    (moduleItem call).run s = (none, s) := by
  obtain ⟨⟨range, lexeme⟩, following, previousStop, arena, diagnostics, depth, widened⟩ := s
  obtain rfl : lexeme = .endOfStream := (List.cons.inj hs).1
  rfl

/-- A statement is one item of a text. -/
theorem run_moduleItem (hs : s.upcoming = y :: rest) (hy : y.Opens 0)
    (h : (call .statement).run s = (id, s')) :
    (moduleItem call).run s = (some (some id), s') := by
  refine (run_bind_of (x := peek) rfl).trans ?_
  simp only [s.lexeme_current hs]
  have hitem : (call .statement >>= fun id => pure (some (some id))).run s =
      (some (some id), s') := run_bind_of h
  obtain ⟨m, hm, -⟩ := hy
  cases y with
  | operator op => exact hitem
  | keyword k => exact hitem
  | _ => first | exact hitem | cases hm

/-- A text of one statement has one statement. -/
theorem run_module (hs : s.upcoming = y :: rest) (hy : y.Opens 0)
    (h : (call .statement).run s = (id, s')) (hs' : s'.upcoming = [.endOfStream]) (length : Nat) :
    (module call length).run s =
      (s'.arena.size, { s' with arena := (s'.arena.add 0 length (.module [id])).2 }) := by
  -- Nothing is left for a second round.
  have hmany : (manyAtMost (moduleItem call) (s'.following.length + 1)).run s' = ([], s') := by
    rw [manyAtMost]
    exact run_bind_of (run_moduleItem_none hs')
  have hitems : (many (moduleItem call)).run s = ([some id], s') := by
    refine (run_bind_of (run_moduleItem hs hy h)).trans ?_
    refine (run_bind_of (x := roundLimit) rfl).trans ?_
    exact run_bind_of hmany
  exact run_bind_of hitems

end Grammar

/-! ## Whole texts -/

namespace ParsedText

/-- Nothing is wrong with a text, and its one statement is an expression. -/
structure IsLineOf (p : ParsedText) (e : Expression) : Prop where
  /-- Nothing is wrong. -/
  diagnostics : p.diagnostics = []
  /-- There is one line with one statement, which is the expression. -/
  statement : ∃ line n, p.arena.form? p.root = some (.module [line]) ∧
    p.arena.form? line = some (.statementList [n]) ∧ p.arena.Shows n e

/-- What is read of a text that is one line with one expression. -/
theorem parseTokens_of_run {length : Nat} {tokens : List Token} {s' : ParseState} {id : NodeId}
    {y : Lexeme} {rest : List Lexeme} {kind : NewLineKind}
    (hs : (initialState length tokens).upcoming = y :: rest) (hy : y.Opens 0)
    (h : (Rule.parse (4 * tokens.length + 15) .test).run (initialState length tokens) = (id, s'))
    (hs' : s'.upcoming = [.newLine kind, .endOfStream]) :
    let start := (initialState length tokens).current.start
    let line := Grammar.lineEnded start id s'
    parseTokens length tokens = (line.arena.size,
      { line with arena := (line.arena.add 0 length (.module [s'.arena.size])).2 }) :=
  Grammar.run_module hs hy (Grammar.run_statement hs hy hs' h)
    (Grammar.goesTo_lineEnded _ id hs').upcoming length

/-- A text with the lexemes of some words has them before its parser in the beginning. -/
theorem upcoming_initialState {tokens : List Token} {lexemes : List Lexeme}
    (h : tokens.map Token.lexeme = lexemes) (hne : lexemes ≠ []) (length : Nat) :
    (initialState length tokens).upcoming = lexemes := by
  rw [← h]
  cases tokens with
  | nil => exact absurd h.symm hne
  | cons token tokens => rfl

/-- A text of words that are read as an expression is a line of it. -/
theorem isLineOf_of_isRead {e : Expression} {words : List Word} {depth : Nat}
    (hread : e.IsRead 0 words depth) (hopens : OpensAt 0 words) (h : depth < depthLimit)
    {text : String} {kind : NewLineKind} (htext : (Tokens.ofText text.toList).map Token.lexeme =
      words.map Word.lexeme ++ [.newLine kind, .endOfStream]) : (ofText text).IsLineOf e := by
  have hlength := congrArg List.length htext
  simp only [List.length_append, List.length_map, List.length_cons] at hlength
  have hupcoming := upcoming_initialState htext (by simp) (byteLength text.toList)
  generalize htokens : Tokens.ofText text.toList = tokens at *
  obtain ⟨w, more, rfl, hw⟩ := hopens
  have hexpression := (@hread (4 * tokens.length + 14) _ _ _ hupcoming (Nat.le_refl 0)
    (by simpa [initialState] using h) (by omega)).reads_of_not_chained (by decide)
  obtain ⟨n, s', hrun, hgoes, hn⟩ := hexpression
  have hparse := parseTokens_of_run hupcoming hw hrun hgoes.upcoming
  have hline := Grammar.goesTo_lineEnded
    (initialState (byteLength text.toList) tokens).current.start n hgoes.upcoming
  refine ⟨?_, s'.arena.size, n, ?_⟩
  · simp only [ofText, htokens, hparse, hline.diagnostics, hgoes.diagnostics]
    rfl
  · have hkeeps := Arena.Keeps.add (Grammar.lineEnded
      (initialState (byteLength text.toList) tokens).current.start n s').arena 0
      (byteLength text.toList) (.module [s'.arena.size])
    simp only [ofText, htokens, hparse]
    refine ⟨?_, ?_, hn.keep (hline.keeps.trans hkeeps)⟩
    · rw [Arena.form?_add, if_pos rfl]
    · have hsize : s'.arena.size < (Grammar.lineEnded
          (initialState (byteLength text.toList) tokens).current.start n s').arena.size := by
        rw [Grammar.lineEnded, arena_advanced, Arena.size_add]
        exact Nat.lt_succ_self _
      rw [Arena.form?_add, if_neg (Nat.ne_of_lt hsize), Grammar.lineEnded, arena_advanced,
        Arena.form?_add, if_pos rfl]

/-- A text with the lexemes of an expression is a line of it. -/
theorem isLineOf_of_lexemes {e : Expression} (h : e.depth < depthLimit) {text : String}
    {kind : NewLineKind} (htext : (Tokens.ofText text.toList).map Token.lexeme =
      e.bare.map Word.lexeme ++ [.newLine kind, .endOfStream]) : (ofText text).IsLineOf e :=
  isLineOf_of_isRead
    (e.isRead_bare.down e.level_le e.opensAt_bare e.spelled_bare (Nat.zero_le _))
    (e.opensAt_bare.mono (Nat.zero_le _)) h htext

/-- Every expression that is not nested too deep is read as it was written: nothing is wrong with
the text, and its one statement is the expression. The same holds of every other text with the same
lexemes on its one line. -/
theorem ofText_expression (e : Expression) (h : e.depth < depthLimit) :
    (ofText e.text).IsLineOf e ∧
      ∀ (text : String) (kind : NewLineKind), (Tokens.ofText text.toList).map Token.lexeme =
        e.bare.map Word.lexeme ++ [.newLine kind, .endOfStream] → (ofText text).IsLineOf e := by
  have hall := fun text kind => @isLineOf_of_lexemes e h text kind
  refine ⟨hall _ .implied ?_, hall⟩
  obtain ⟨w, more, hwords, -⟩ := e.opensAt_bare
  rw [Expression.text, String.toList_ofList]
  exact Tokens.lexemes_spelled (fun w hw => (e.spelled_bare w hw).1)
    (hwords ▸ List.cons_ne_nil w more)

/-- A negated comparison of the negative of a square, also without the blanks. -/
theorem ofText_expression_negative_square :
    let x : Expression := .name ⟨['x'], rfl⟩
    let square : Expression := .binary ⟨.power, 12, rfl⟩ x (.integer 2)
    let e : Expression :=
      .negation (.binary ⟨.notIn, 4, rfl⟩ (.signed ⟨.subtract, rfl⟩ square) x)
    e.depth < depthLimit ∧ (ofText e.text).IsLineOf e ∧
      (ofText (String.ofList ['n', 'o', 't', ' ', '-', 'x', '*', '*', '2', ' ', 'n', 'o', 't', ' ',
        'i', 'n', ' ', 'x', '\n'])).IsLineOf e := by
  intro x square e
  have hdepth : e.depth < depthLimit := by decide
  have hall := ofText_expression e hdepth
  refine ⟨hdepth, hall.1, hall.2 _ .lineFeed ?_⟩
  rw [String.toList_ofList]
  decide +kernel

end ParsedText

end TypeProbe
