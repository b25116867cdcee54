import TypeProbe.Proofs.Joined.Lines
import TypeProbe.Proofs.Joined.Statements

/-!
# Two parsers on the same lines

A text of whole lines without blocks is read line by line. Its own parser and that of a longer text
are at the same place between two lines (`Level`), and go side by side to the end of the next one
(`Level.round`), since a simple statement stops there whatever comes after. So they have the same
items behind all lines (`Level.rounds`). What the parsers repeat is put together from rounds
(`Rounds`), since both go on behind the lines with what is left of their bounds.
-/

open TypeProbe.Parser

namespace TypeProbe

/-! ## Rounds -/

namespace Parser

variable {α : Type} {step : Parser (Option α)} {s t u : ParseState} {as : List α} {a : α}

/-- A parser may look at the next token. -/
theorem run_peek_bind {f : Token → Parser α} : (peek >>= f).run s = (f s.current).run s := rfl

/-- A step is taken again and again, and each round takes a token. -/
inductive Rounds (step : Parser (Option α)) : ParseState → List α → ParseState → Prop where
  | done {s : ParseState} : Rounds step s [] s
  | round {s t u : ParseState} {a : α} {as : List α} (h : step.run s = (some a, t))
    (hless : t.following.length < s.following.length) (hrest : Rounds step t as u) :
    Rounds step s (a :: as) u

/-- There are as many tokens as rounds, and more. -/
theorem Rounds.length_le (h : Rounds step s as u) :
    as.length + u.following.length ≤ s.following.length := by
  induction h with
  | done => simp
  | round h hless hrest ih =>
    rw [List.length_cons]
    omega

/-- A step that is taken is the first of those that are repeated. -/
theorem manyAtMost_run (h : step.run s = (some a, t)) (n : Nat) :
    (manyAtMost step (n + 1)).run s =
      (a :: ((manyAtMost step n).run t).1, ((manyAtMost step n).run t).2) := by
  rw [manyAtMost, StateT.run_bind, h]
  rfl

/-- Rounds are the first ones of those that are repeated. -/
theorem Rounds.manyAtMost (h : Rounds step s as u) (n : Nat) :
    (manyAtMost step (as.length + n)).run s =
      (as ++ ((Parser.manyAtMost step n).run u).1, ((Parser.manyAtMost step n).run u).2) := by
  induction h with
  | done =>
    rw [List.length_nil, Nat.zero_add]
    rfl
  | round h hless hrest ih =>
    rw [List.length_cons, Nat.add_right_comm, manyAtMost_run h, ih]
    rfl

/-- A step is repeated until it yields nothing, with a bound that is great enough or without one. -/
def Repeats (step : Parser (Option α)) (s : ParseState) (x : Parser (List α)) : Prop :=
  x = many step ∨ ∃ n, s.following.length < n ∧ x = manyAtMost step n

/-- A step that yields nothing is not repeated. -/
theorem Repeats.run_of_none {x : Parser (List α)} (h : Repeats step s x)
    (hnone : step.run s = (none, t)) : x.run s = ([], t) := by
  rcases h with rfl | ⟨n, hn, rfl⟩
  · rw [many, StateT.run_bind, hnone]
    rfl
  · obtain ⟨n, rfl⟩ := Nat.exists_eq_add_of_le' (Nat.le_trans (Nat.le_add_left 1 _) hn)
    rw [manyAtMost, StateT.run_bind, hnone]
    rfl

/-- Behind some rounds a step is repeated as from there on. -/
theorem Rounds.many (h : Rounds step s as u) : ∃ x : Parser (List α), Repeats step u x ∧
    (Parser.many step).run s = (as ++ (x.run u).1, (x.run u).2) := by
  cases h with
  | done => exact ⟨_, .inl rfl, rfl⟩
  | @round _ t _ a as h hless hrest =>
    have hmany : (Parser.many step).run s =
        (a :: ((Parser.manyAtMost step (t.following.length + 1)).run t).1,
          ((Parser.manyAtMost step (t.following.length + 1)).run t).2) := by
      rw [Parser.many, StateT.run_bind, h]
      rfl
    have hlength := hrest.length_le
    obtain ⟨n, hn⟩ : ∃ n, t.following.length + 1 = as.length + n :=
      ⟨_, (Nat.add_sub_cancel' (by omega)).symm⟩
    refine ⟨_, .inr ⟨n, by omega, rfl⟩, ?_⟩
    rw [hmany, hn, hrest.manyAtMost]
    rfl

end Parser

/-! ## Lines -/

/-- Two parsers are at the same place between two lines of the first of two texts: they have the
same tokens of it before them, and have built the same nodes and noted the same faults. -/
structure Level (stop : Nat) (todo rest rest' : List Token) (s s' : ParseState) : Prop where
  /-- The tokens before the first parser. -/
  tokens : s.current :: s.following = todo ++ rest
  /-- The tokens before the second one. -/
  tokens' : s'.current :: s'.following = todo ++ rest'
  /-- Both took the same token last. -/
  previous : s'.previousStop = s.previousStop
  /-- The nodes are the same. -/
  arena : s'.arena = s.arena
  /-- The faults are the same. -/
  diagnostics : s'.diagnostics = s.diagnostics
  /-- They are those of the text. -/
  placed : ∀ d ∈ s.diagnostics, d.range.start < stop ∧ d.range.stop ≤ stop
  /-- The first parser is in no expression. -/
  depth : s.depth = 0
  /-- Neither is the second one. -/
  depth' : s'.depth = 0

/-- How many tokens are before the parsers. -/
theorem Level.length {stop : Nat} {todo rest rest' : List Token} {s s' : ParseState}
    (h : Level stop todo rest rest' s s') :
    s.following.length + 1 = todo.length + rest.length ∧
      s'.following.length + 1 = todo.length + rest'.length := by
  have hlength := congrArg List.length h.tokens
  have hlength' := congrArg List.length h.tokens'
  rw [List.length_cons, List.length_append] at hlength hlength'
  exact ⟨hlength, hlength'⟩

/-- What the second parser has more on a line. -/
def Frame.line (stop : Nat) (rest rest' : List Token) : Frame where
  bytes := 0
  front := Arena.empty
  faults := []
  before := nofun
  whole := false
  rest := rest
  rest' := rest'
  place range := range.start < stop ∧ range.stop ≤ stop
  level _ := True
  deeper _ _ h := h

/-- The tokens of a line run to its end. -/
theorem Frame.runs_line {F : Frame} (hF : F.whole = false) {last : Token}
    (hlast : last.kind = .newLine) {t : Token} {tokens : List Token}
    (h : ∀ u ∈ t :: tokens, endsLine u.kind = false) : F.Runs t (tokens ++ [last]) := by
  have hcons : ∀ {t u us}, endsLine t.kind = false → F.Runs u us → F.Runs t (u :: us) :=
    fun ht hu => .cons (Frame.not_isEnd ht) (fun heq => by rw [heq] at ht; cases ht) hu
  induction tokens generalizing t with
  | nil =>
    refine hcons (h t List.mem_cons_self) (.last ?_)
    rw [IsEnd, ending, hF]
    exact hlast
  | cons u tokens ih =>
    exact hcons (h t List.mem_cons_self) (ih fun v hv => h v (List.mem_cons_of_mem _ hv))

/-- At the start of a line the parsers are side by side on the whole line. -/
theorem Level.beside {stop : Nat} {t last : Token} {tokens todo rest rest' : List Token}
    {s s' : ParseState}
    (h : Level stop (t :: tokens ++ last :: todo) rest rest' s s')
    (hlast : last.kind = .newLine) (hline : ∀ u ∈ t :: tokens, endsLine u.kind = false)
    (hplace : ∀ u ∈ t :: tokens ++ [last], u.start < stop ∧ u.stop ≤ stop) :
    Beside (Frame.line stop (todo ++ rest) (todo ++ rest'))
      ⟨t, tokens ++ [last], s.arena.size, 0⟩ s s' := by
  obtain ⟨htoken, hafter⟩ := List.cons.inj h.tokens
  obtain ⟨htoken', hafter'⟩ := List.cons.inj h.tokens'
  refine ⟨htoken, htoken', ?_, ?_, Frame.runs_line rfl hlast hline, hplace, ?_, ?_, Nat.le_refl _,
    ?_, h.placed, h.depth, h.depth', trivial⟩
  · simpa [Frame.line] using hafter
  · simpa [Frame.line] using hafter'
  · simpa [Frame.line] using h.previous
  · exact h.arena.trans (Arena.behind_empty _).symm
  · simpa [Frame.line] using h.diagnostics

/-- At the end of the line they are at the same place. -/
theorem Level.of_beside {stop : Nat} {todo rest rest' : List Token} {q : Spot} {s s' : ParseState}
    (h : Beside (Frame.line stop (todo ++ rest) (todo ++ rest')) q s s') (hafter : q.after = [])
    (hdepth : q.depth = 0) : Level stop (q.token :: todo) rest rest' s s' := by
  have htokens := h.after
  have htokens' := h.after'
  have hprevious := h.previous
  have hdiagnostics := h.diagnostics
  simp only [hafter, Frame.line, List.map_nil, List.nil_append] at htokens htokens'
  simp only [Frame.line, Diagnostic.shift_zero, List.map_id, List.append_nil, Nat.zero_max,
    Nat.add_zero]
    at hprevious hdiagnostics
  exact ⟨congrArg₂ _ h.token htokens, congrArg₂ _ h.token' htokens', hprevious,
    h.arena.trans (Arena.behind_empty _), hdiagnostics, h.placed, h.depth.trans hdepth,
    h.depth'.trans hdepth⟩

/-- A statement that starts with a token which opens no block is a line of simple ones. -/
theorem Grammar.statement_of_not_opensBlock {call : Rules} {s : ParseState}
    (h : ¬ s.current.OpensBlock) :
    (Grammar.statement call).run s = (Grammar.statementList call).run s := by
  have hword : ∀ word ∈ Keyword.blockWords, s.current.lexeme ≠ .keyword word := by
    intro word hword hlexeme
    refine h (.inr (.inr ⟨word, hword, ?_⟩))
    rw [Token.keyword?, hlexeme]
  have hmark : s.current.lexeme ≠ .operator .matrixMultiply := by
    intro hlexeme
    refine h (.inr (.inl ?_))
    rw [Token.operator?, hlexeme]
  unfold Grammar.statement
  rw [run_peek_bind]
  split
  · exact absurd ‹_› (hword .define (by decide))
  · exact absurd ‹_› (hword .class (by decide))
  · exact absurd ‹_› (hword .if (by decide))
  · exact absurd ‹_› (hword .while (by decide))
  · exact absurd ‹_› (hword .for (by decide))
  · exact absurd ‹_› (hword .try (by decide))
  · exact absurd ‹_› (hword .with (by decide))
  · exact absurd ‹_› (hword .async (by decide))
  · exact absurd ‹_› hmark
  · rfl

/-- The simple statements of a line are read before its end is taken. -/
theorem Grammar.statementList_run {call : Rules} {s t : ParseState} {id : NodeId}
    (h : (Grammar.statementLine call).run s = (id, t)) (hend : t.current.kind = .newLine) :
    (Grammar.statementList call).run s = (id, advanced t) := by
  have hconsume : (consume .newLine).run t = (some t.current, advanced t) := by
    show (advanceIf (t.current.kind == .newLine)).run t = _
    rw [hend]
    rfl
  rw [Grammar.statementList_eq, StateT.run_bind, h]
  show ((consume .newLine >>= fun _ => pure id : Parser NodeId)).run t = _
  rw [StateT.run_bind, hconsume]
  rfl

/-- An item of a text that starts with such a token is a line. -/
theorem Grammar.moduleItem_run {fuel : Nat} {s t : ParseState} {id : NodeId}
    (h : ¬ s.current.OpensBlock) (hdedent : s.current.kind ≠ .dedent)
    (hline : endsLine s.current.kind = false)
    (hrun : (Grammar.statementLine (Rule.parse fuel)).run s = (id, t))
    (hend : t.current.kind = .newLine) :
    (Grammar.moduleItem (Rule.parse (fuel + 1))).run s = (some (some id), advanced t) := by
  have hstatement : (Rule.parse (fuel + 1) .statement).run s = (id, advanced t) :=
    (statement_of_not_opensBlock h).trans (statementList_run hrun hend)
  have hitem : (Grammar.moduleItem (Rule.parse (fuel + 1))).run s =
      (do return some (some (← Rule.parse (fuel + 1) .statement)) :
        Parser (Option (Option NodeId))).run s := by
    unfold Grammar.moduleItem
    rw [run_peek_bind]
    split
    · rename_i hlexeme
      rw [Token.kind, hlexeme] at hline
      cases hline
    · rename_i hlexeme
      rw [Token.kind, hlexeme] at hline
      cases hline
    · rename_i hlexeme
      exact absurd (.inl (congrArg Lexeme.kind hlexeme)) h
    · rename_i hlexeme
      exact absurd (congrArg Lexeme.kind hlexeme) hdedent
    · rfl
  rw [hitem, StateT.run_bind, hstatement]
  rfl

/-- Behind the end of a line the parsers are at the same place again. -/
theorem Level.pastEnd {stop : Nat} {last : Token} {todo rest rest' : List Token}
    {s s' : ParseState} (h : Level stop (last :: todo) rest rest' s s') (hrest : rest ≠ [])
    (hrest' : rest' ≠ []) (hlast : last.kind = .newLine) :
    Level stop todo rest rest' (advanced s) (advanced s') ∧
      (advanced s).previousStop = last.stop ∧ (advanced s).arena = s.arena := by
  obtain ⟨htoken, hafter⟩ := List.cons.inj h.tokens
  obtain ⟨htoken', hafter'⟩ := List.cons.inj h.tokens'
  obtain ⟨next, more, hnext⟩ :=
    List.exists_cons_of_ne_nil (List.append_ne_nil_of_right_ne_nil todo hrest)
  obtain ⟨next', more', hnext'⟩ :=
    List.exists_cons_of_ne_nil (List.append_ne_nil_of_right_ne_nil todo hrest')
  have hstream : last.kind ≠ .endOfStream := fun heq => by
    rw [hlast] at heq
    cases heq
  rw [advanced_of_following (hafter.trans hnext) (htoken ▸ hstream),
    advanced_of_following (hafter'.trans hnext') (htoken' ▸ hstream), htoken, htoken']
  exact ⟨⟨hnext.symm, hnext'.symm, rfl, h.arena, h.diagnostics, h.placed, h.depth, h.depth'⟩, rfl,
    rfl⟩

/-- A line is read by both parsers in the same way, and they are at the same place behind it. -/
theorem Level.round {stop fuel fuel' : Nat} {line todo rest rest' : List Token} {last : Token}
    {s s' : ParseState}
    (h : Level stop (line ++ last :: todo) rest rest' s s') (hrest : rest ≠ [])
    (hrest' : rest' ≠ []) (hlast : last.kind = .newLine)
    (hline : ∀ u ∈ line, endsLine u.kind = false)
    (hplace : ∀ u ∈ line ++ [last], u.start < stop ∧ u.stop ≤ stop)
    (hhead : ∀ u ∈ line.head?, ¬ u.OpensBlock ∧ u.kind ≠ .dedent)
    (hfuel : 4 * line.length + 5 ≤ fuel) (hfuel' : 4 * line.length + 5 ≤ fuel') :
    ∃ item t t', (Grammar.moduleItem (Rule.parse fuel)).run s = (some item, t) ∧
      (Grammar.moduleItem (Rule.parse fuel')).run s' = (some item, t') ∧
      Level stop todo rest rest' t t' ∧ t.previousStop ≤ stop ∧ s.arena.size ≤ t.arena.size ∧
      ∀ id ∈ item, id < t.arena.size := by
  cases line with
  | nil =>
    -- The line has no tokens but its end.
    have hitem : ∀ {s : ParseState} {call}, s.current = last →
        (Grammar.moduleItem call).run s = (some none, advanced s) := by
      intro s call htoken
      obtain ⟨⟨range, lexeme⟩⟩ := s
      subst htoken
      cases lexeme with
      | newLine => rfl
      | _ => cases hlast
    obtain ⟨hlevel, hprevious, harena⟩ := Level.pastEnd h hrest hrest' hlast
    refine ⟨none, _, _, hitem (List.cons.inj h.tokens).1, hitem (List.cons.inj h.tokens').1, hlevel,
      ?_, Nat.le_of_eq (congrArg _ harena.symm), nofun⟩
    exact hprevious ▸ (hplace last (List.mem_append_right _ (List.mem_singleton_self _))).2
  | cons head tokens =>
    obtain ⟨fuel, rfl⟩ := Nat.exists_eq_add_of_le' (show 1 ≤ fuel by omega)
    obtain ⟨fuel', rfl⟩ := Nat.exists_eq_add_of_le' (show 1 ≤ fuel' by omega)
    rw [List.length_cons] at hfuel hfuel'
    obtain ⟨hopens, hdedent⟩ := hhead head rfl
    have hbegins := hline head List.mem_cons_self
    have hbeside := h.beside hlast hline hplace
    have hcall : RulesAlike (Frame.line stop (todo ++ rest) (todo ++ rest'))
        (4 * (tokens ++ [last]).length + 4) (Rule.parse fuel) (Rule.parse fuel') := by
      rw [List.length_append, List.length_singleton]
      exact RulesAlike.parse _ (by omega) (by omega)
    obtain ⟨q, hq, hbehind, hvalue, hid, hend, -⟩ :=
      Alike.statementLine hcall hbegins (Nat.lt_succ_self _) s s' hbeside
    obtain ⟨hkind, hafter⟩ := hbehind.runs.nil_of_endsLine rfl hend
    generalize hrun : (Grammar.statementLine (Rule.parse fuel)).run s = r at *
    generalize hrun' : (Grammar.statementLine (Rule.parse fuel')).run s' = r' at *
    obtain ⟨i, t⟩ := r
    obtain ⟨i', t'⟩ := r'
    obtain rfl : i' = i := hvalue
    have hbefore := Level.of_beside hbehind hafter hq.2.2.2
    obtain ⟨hlevel, hprevious, harena⟩ := hbefore.pastEnd hrest hrest' hkind
    have htoken : s.current = head := (List.cons.inj h.tokens).1
    have htoken' : s'.current = head := (List.cons.inj h.tokens').1
    have hkind' : t'.current.kind = .newLine := (congrArg Token.kind hbehind.token').trans hkind
    refine ⟨some i', _, _, Grammar.moduleItem_run (htoken ▸ hopens) (htoken ▸ hdedent)
      (htoken ▸ hbegins) hrun (hbehind.token ▸ hkind), Grammar.moduleItem_run (htoken' ▸ hopens)
      (htoken' ▸ hdedent) (htoken' ▸ hbegins) hrun' hkind', hlevel, ?_, ?_, ?_⟩
    · exact hprevious ▸ (hbehind.places _ List.mem_cons_self).2
    · exact harena ▸ Nat.le_trans hq.2.1 hbehind.nodes
    · intro j hj
      obtain rfl := Option.some.inj hj
      exact harena ▸ Nat.lt_of_lt_of_le hid hbehind.nodes

/-- Whole lines have a first one. -/
theorem exists_line {tokens : List Token} (hne : tokens ≠ []) (hends : StartsLine tokens)
    (hkinds : ∀ t ∈ tokens, t.kind ≠ .endOfStream) : ∃ line last todo,
      tokens = line ++ last :: todo ∧ last.kind = .newLine ∧
        ∀ t ∈ line, endsLine t.kind = false := by
  induction tokens with
  | nil => exact absurd rfl hne
  | cons t tokens ih =>
    by_cases ht : t.kind = .newLine
    · exact ⟨[], t, tokens, rfl, ht, nofun⟩
    · have hmore : tokens ≠ [] := fun hnil => ht (hends t (hnil ▸ rfl))
      obtain ⟨line, last, todo, rfl, hlast, hline⟩ := ih hmore
        (fun u hu => hends u (List.getLast?_cons_of_ne_nil hmore ▸ hu))
        fun u hu => hkinds u (List.mem_cons_of_mem _ hu)
      have hends : endsLine t.kind = false :=
        Bool.or_eq_false_iff.2 ⟨beq_false_of_ne ht, beq_false_of_ne (hkinds t List.mem_cons_self)⟩
      exact ⟨t :: line, last, todo, rfl, hlast, List.forall_mem_cons.2 ⟨hends, hline⟩⟩

/-- All lines are read by both parsers in the same way. -/
theorem Level.rounds {stop fuel fuel' : Nat} {tokens todo before rest rest' : List Token}
    {s s' : ParseState} (hplain : PlainLines stop tokens) (hrest : rest ≠ []) (hrest' : rest' ≠ [])
    (hfuel : 4 * tokens.length + 5 ≤ fuel) (hfuel' : 4 * tokens.length + 5 ≤ fuel')
    (htokens : tokens = before ++ todo) (hstart : StartsLine before)
    (h : Level stop todo rest rest' s s') (hprevious : s.previousStop ≤ stop) :
    ∃ items u u', Rounds (Grammar.moduleItem (Rule.parse fuel)) s items u ∧
      Rounds (Grammar.moduleItem (Rule.parse fuel')) s' items u' ∧
      Level stop [] rest rest' u u' ∧ u.previousStop ≤ stop ∧ s.arena.size ≤ u.arena.size ∧
      ∀ id, some id ∈ items → id < u.arena.size := by
  induction hlength : todo.length using Nat.strong_induction_on generalizing before todo s s' with
  | _ length ih =>
  subst hlength
  by_cases hne : todo = []
  · subst hne
    exact ⟨[], s, s', .done, .done, h, hprevious, Nat.le_refl _, nofun⟩
  have hmem : ∀ t ∈ todo, t ∈ tokens := fun t ht => htokens ▸ List.mem_append_right before ht
  have hends : StartsLine todo := fun t ht => hplain.ends t (by
    rw [htokens, List.getLast?_append, Option.mem_def.1 ht]
    rfl)
  obtain ⟨line, last, more, rfl, hlast, hline⟩ :=
    exists_line hne hends fun t ht => (hplain.kinds t (hmem t ht)).1
  have hhead : ∀ t ∈ line.head?, ¬ t.OpensBlock ∧ t.kind ≠ .dedent := by
    intro t ht
    obtain ⟨tail, rfl⟩ := List.head?_eq_some_iff.1 ht
    exact ⟨hplain.heads before t _ htokens hstart, (hplain.kinds t (hmem t List.mem_cons_self)).2⟩
  have hplace : ∀ t ∈ line ++ [last], t.start < stop ∧ t.stop ≤ stop := by
    intro t ht
    refine hplain.within t (hmem t ?_)
    rw [List.append_cons]
    exact List.mem_append_left more ht
  have hshort := congrArg List.length htokens
  simp only [List.length_append, List.length_cons] at hshort
  have hline' : 4 * line.length + 5 ≤ fuel := by omega
  have hline'' : 4 * line.length + 5 ≤ fuel' := by omega
  -- The line is read, and there is less to do behind it.
  obtain ⟨item, t, t', hrun, hrun', hlevel, hwithin, hsize, hitem⟩ :=
    h.round hrest hrest' hlast hline hplace hhead hline' hline''
  have hstart' : StartsLine (before ++ line ++ [last]) := fun t ht => by
    rw [List.getLast?_concat] at ht
    exact Option.some.inj ht ▸ hlast
  have hless : more.length < (line ++ last :: more).length := by
    rw [List.length_append, List.length_cons]
    omega
  obtain ⟨items, u, u', hrounds, hrounds', hend, hwithin', hsize', hitems⟩ :=
    ih more.length hless (by rw [htokens]; simp) hstart' hlevel hwithin rfl
  obtain ⟨hbefore, hbefore'⟩ := h.length
  obtain ⟨hbehind, hbehind'⟩ := hlevel.length
  refine ⟨item :: items, u, u', .round hrun (by omega) hrounds, .round hrun' (by omega) hrounds',
    hend, hwithin', Nat.le_trans hsize hsize', fun id hid => ?_⟩
  rcases List.mem_cons.1 hid with rfl | hid
  · exact Nat.lt_of_lt_of_le (hitem id rfl) hsize'
  · exact hitems id hid

end TypeProbe
