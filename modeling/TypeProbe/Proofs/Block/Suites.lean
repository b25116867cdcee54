import TypeProbe.Proofs.Block.Lines
import TypeProbe.Proofs.Joined.Rounds

/-!
# Suites

A suite that is indented reads statements up to the dedentation of its block (`Region.of_block`); an
indentation that it meets on the way opens no block, and is passed over. So the suite has all of its
block, and the parser goes on behind it (`Passage.suite`).
-/

open TypeProbe.Parser

namespace TypeProbe

/-- From its first token on, a statement is read with the blocks in it. -/
def ReadsBlocks (T : List Token) (n : Nat) (x : Parser NodeId) : Prop :=
  ∀ s k, s.At T k → s.current.lexeme.IsWritten → s.following.length ≤ n →
    Passage T (s.origin k n) false [(x.run s).1] (x.run s).2

/-- The rules for statements with blocks read them where few enough tokens are left. -/
structure RulesPassage (T : List Token) (fuel : Nat) : Prop where
  /-- Statements are read. -/
  statement : ∀ n, 4 * n + 4 < fuel → ReadsBlocks T n (Rule.parse fuel .statement)
  /-- Conditional statements are read. -/
  ifStatement : ∀ n, 4 * n < fuel → ReadsBlocks T n (Rule.parse fuel .ifStatement)

/-- Two states have the same tokens before them and the same nodes. -/
structure ParseState.Same (s s' : ParseState) : Prop where
  /-- The next token is the same. -/
  current : s'.current = s.current
  /-- So are the tokens after it. -/
  following : s'.following = s.following
  /-- The same token was taken last. -/
  previous : s'.previousStop = s.previousStop
  /-- The nodes are the same. -/
  arena : s'.arena = s.arena

/-- A fault that is noted is no token and no node. -/
theorem Parser.same_faultAt (range : TextRange) (f : SyntaxFault) (s : ParseState) :
    s.Same ((faultAt range f).run s).2 := by
  show s.Same (if _ then s else _)
  split
  · exact ⟨rfl, rfl, rfl, rfl⟩
  · exact ⟨rfl, rfl, rfl, rfl⟩

/-- A fault that is noted at the next token is no token and no node. -/
theorem Parser.same_fault (f : SyntaxFault) (s : ParseState) : s.Same ((fault f).run s).2 :=
  same_faultAt s.current.range f s

/-- What a round of a block does depends on the kind of the next token. -/
theorem Grammar.blockItem_cases (call : Rules) (s : ParseState) :
    (s.current.lexeme.IsWritten ∧ (blockItem call).run s =
        (some (some ((call .statement).run s).1), ((call .statement).run s).2)) ∨
      (s.current.kind = .endOfStream ∧ (blockItem call).run s = (none, s)) ∨
      (s.current.kind = .dedent ∧ ∃ u, (advanced s).Same u ∧ (blockItem call).run s = (none, u)) ∨
      (s.current.kind ≠ .dedent ∧ s.current.kind ≠ .endOfStream ∧
        ∃ u, s.Same u ∧ (blockItem call).run s = (some none, advanced u)) := by
  obtain ⟨⟨range, lexeme⟩⟩ := s
  cases lexeme with
  | endOfStream => exact .inr (.inl ⟨rfl, rfl⟩)
  | dedent amount matchesIndent =>
    refine .inr (.inr (.inl ⟨rfl, ?_⟩))
    cases matchesIndent with
    | true => exact ⟨_, ⟨rfl, rfl, rfl, rfl⟩, rfl⟩
    | false => exact ⟨_, same_faultAt range .inconsistentUnindent _, rfl⟩
  | indent amount =>
    exact .inr (.inr (.inr ⟨by simp [Token.kind, Lexeme.kind], by simp [Token.kind, Lexeme.kind], _,
      same_faultAt range .unexpectedIndent _, rfl⟩))
  | newLine kind =>
    exact .inr (.inr (.inr ⟨by simp [Token.kind, Lexeme.kind], by simp [Token.kind, Lexeme.kind], _,
      ⟨rfl, rfl, rfl, rfl⟩, rfl⟩))
  | _ => exact .inl ⟨trivial, rfl⟩

/-! ## Parts of a suite -/

namespace Grammar

variable (call : Rules)

/-- The statements of a suite on the line of its colon. -/
def suiteLine (start colonStop : Nat) : Parser NodeId := do
  let statements ← if ← atEndOfLine then pure [] else List.singleton <$> statementList call
  addNode start colonStop (.suite statements)

/-- The statements of a suite behind its indentation. -/
def suiteBlock (start : Nat) : Parser NodeId := do
  let statements := (← many (blockItem call)).filterMap id
  let last := statements.getLast?.bind (← get).arena.range?
  addNode start ((last.map TextRange.stop).getD start) (.suite statements)

/-- A suite behind its colon. -/
def suiteBody (start colonStop : Nat) : Parser NodeId := do
  if ← took .newLine then
    if ← took .indent then suiteBlock call start
    else
      fault .missingBlock
      addNode start colonStop (.suite [])
  else suiteLine call start colonStop

/-- A suite is read from its colon on. -/
theorem suite_eq : suite call = (do
    let start ← currentStart
    match ← consume .colon with
    | some colon => suiteBody call start colon.stop
    | none =>
      fault (.spelling ":")
      suiteBody call start start) := by
  unfold suite
  refine congrArg (currentStart >>= ·) (funext fun start => ?_)
  extract_lets rest
  have hrest : ∀ colonStop, rest colonStop = suiteBody call start colonStop := by
    intro colonStop
    refine congrArg (took .newLine >>= ·) (funext fun onLine => ?_)
    cases onLine with
    | false =>
      refine congrArg (atEndOfLine >>= ·) (funext fun ends => ?_)
      cases ends <;> rfl
    | true =>
      refine congrArg (took .indent >>= ·) (funext fun indented => ?_)
      cases indented <;> rfl
  refine congrArg (consume .colon >>= ·) (funext fun colon => ?_)
  cases colon with
  | none => exact congrArg (fault (.spelling ":") >>= ·) (funext fun _ => hrest start)
  | some colon => exact hrest colon.stop

end Grammar

namespace Parser

variable {kind : TokenKind} {s : ParseState}

/-- A token of the kind that is asked for is taken. -/
theorem run_took_of_kind (h : s.current.kind = kind) : (took kind).run s = (true, advanced s) := by
  show (((advanceIf (s.current.kind == kind)).run s).1.isSome,
    ((advanceIf (s.current.kind == kind)).run s).2) = _
  rw [h, beq_self_eq_true]
  rfl

/-- A token of another kind is not. -/
theorem run_took_of_ne (h : s.current.kind ≠ kind) : (took kind).run s = (false, s) := by
  show (((advanceIf (s.current.kind == kind)).run s).1.isSome,
    ((advanceIf (s.current.kind == kind)).run s).2) = _
  rw [beq_false_of_ne h]
  rfl

end Parser

namespace Grammar

variable {call : Rules} {start stop : Nat} {s : ParseState}

/-- Behind the end of a line and an indentation a suite has a block. -/
theorem run_suiteBody_block (hline : s.current.kind = .newLine)
    (hindent : (advanced s).current.kind = .indent) :
    (suiteBody call start stop).run s = (suiteBlock call start).run (advanced (advanced s)) :=
  (run_bind_of (run_took_of_kind hline)).trans (run_bind_of (run_took_of_kind hindent))

/-- Behind the end of a line an indentation may be missing. -/
theorem run_suiteBody_missing (hline : s.current.kind = .newLine)
    (hindent : (advanced s).current.kind ≠ .indent) :
    (suiteBody call start stop).run s =
      (addNode start stop (.suite [])).run ((fault .missingBlock).run (advanced s)).2 :=
  (run_bind_of (run_took_of_kind hline)).trans (run_bind_of (run_took_of_ne hindent))

/-- On the line of its colon a suite has no block. -/
theorem run_suiteBody_line (hline : s.current.kind ≠ .newLine) :
    (suiteBody call start stop).run s = (suiteLine call start stop).run s :=
  run_bind_of (run_took_of_ne hline)

/-- A suite starts at its colon. -/
theorem run_suite_colon (hcolon : s.current.kind = .colon) :
    (suite call).run s =
      (suiteBody call s.current.start s.current.stop).run (advanced s) := by
  have hconsume : (consume .colon).run s = (some s.current, advanced s) := by
    show (advanceIf (s.current.kind == .colon)).run s = _
    rw [hcolon]
    rfl
  rw [suite_eq]
  exact (run_bind_of rfl).trans (run_bind_of hconsume)

/-- Without its colon a suite starts at the next token. -/
theorem run_suite_bare (hcolon : s.current.kind ≠ .colon) :
    (suite call).run s =
      (suiteBody call s.current.start s.current.start).run ((fault (.spelling ":")).run s).2 := by
  have hconsume : (consume .colon).run s = (none, s) := by
    show (advanceIf (s.current.kind == .colon)).run s = _
    rw [beq_false_of_ne hcolon]
    rfl
  rw [suite_eq]
  exact (run_bind_of rfl).trans (run_bind_of hconsume)

end Grammar

/-! ## Tokens between lines -/

namespace Passage

variable {length : Nat} {T : List Token} {B : Origin} {line : Bool} {s s' : ParseState}
  {roots : List NodeId}

/-- What is no token and no node may change. -/
theorem same (hT : Tape length T) (h : Passage T B line roots s) (hsame : s.Same s') :
    Passage T B line roots s' := by
  suffices hnext : Passage T B line ([] ++ roots) s' from hnext
  refine h.append hT fun k hs hline hroom => ?_
  have hbegin : PassageTo T (s.origin k B.room) line [] s k fun _ => False := .begin hs hline hroom
  exact ⟨k, _, hbegin.append hT
    (.of_same hs (hs.same hsame.current hsame.following hsame.previous) (Nat.le_refl k) hsame.arena)
    (.done k) hline⟩

end Passage

namespace Passages

variable {α : Type} {length : Nat} {T : List Token} {B : Origin} {line line' : Bool}
  {roots : List NodeId} {post : α → List NodeId}

/-- A fault may be noted. -/
theorem fault (hT : Tape length T) (f : SyntaxFault) :
    Passages T B line roots (Parser.fault f) line fun _ => roots :=
  fun s h => h.same hT (same_fault f s)

/-- A token of a kind may be taken that closes no block. -/
theorem consume (hT : Tape length T) {kind : TokenKind} (hkind : kind ≠ .dedent) :
    Passages T B line roots (Parser.consume kind) false fun _ => roots := by
  intro s h
  show Passage T B false roots ((advanceIf (s.current.kind == kind)).run s).2
  cases hfits : s.current.kind == kind with
  | false => exact h.mono (fun _ => id) fun h => absurd h Bool.false_ne_true
  | true =>
    exact h.advanced hT (eq_of_beq hfits ▸ hkind) fun h => absurd h Bool.false_ne_true

/-- Whether the next token is a keyword may be seen. -/
theorem atKeyword {keyword : Keyword} {f : Bool → Parser α}
    (htrue : ∀ s, s.current.lexeme.IsWritten → Passage T B line roots s →
      Passage T B line' (post ((f true).run s).1) ((f true).run s).2)
    (hfalse : Passages T B line roots (f false) line' post) :
    Passages T B line roots (Parser.atKeyword keyword >>= f) line' post := by
  intro s h
  have hrun : (Parser.atKeyword keyword).run s = (s.current.keyword? == some keyword, s) := rfl
  rw [StateT.run_bind, hrun]
  cases hfits : s.current.keyword? == some keyword with
  | false => exact hfalse s h
  | true => exact htrue s (Token.isWritten_of_keyword? (eq_of_beq hfits)) h

/-- A keyword may be taken; then a line goes on. -/
theorem tookKeyword (hT : Tape length T) {keyword : Keyword} {f : Bool → Parser α}
    (htrue : Passages T B true roots (f true) line' post)
    (hfalse : Passages T B false roots (f false) line' post) :
    Passages T B false roots (Parser.tookKeyword keyword >>= f) line' post := by
  intro s h
  have hrun : (Parser.tookKeyword keyword).run s =
      (((advanceIf (s.current.keyword? == some keyword)).run s).1.isSome,
        ((advanceIf (s.current.keyword? == some keyword)).run s).2) := rfl
  rw [StateT.run_bind, hrun]
  cases hfits : s.current.keyword? == some keyword with
  | false => exact hfalse s h
  | true =>
    have hwritten := Token.isWritten_of_keyword? (eq_of_beq hfits)
    refine htrue (advanced s) (h.advanced hT (fun hdedent => ?_) fun _ => hwritten)
    exact Token.not_isLayout hwritten (.inr (.inr hdedent))

end Passages

/-! ## Blocks -/

section Block

variable {length fuel n k m : Nat} {T : List Token} {s s' : ParseState} {roots : List NodeId}
  {opens : Nat → Prop} {stop : Nat}

/-- A suite is read from the token that it starts at, if the blocks that are opened up to its end
are closed in turn. -/
theorem Region.passage_suite (hT : Tape length T) (h : Region T s s' k m roots opens)
    (hline : InLine T k) (hroom : s.following.length ≤ n) {statements : List NodeId}
    (hstatements : ∀ c ∈ statements, c ∈ roots) (hstop : stop ≤ s'.current.start)
    (hclosed : ∀ j, Opening T k j → ∃ e, m = e + 1 ∧ Closes T opens j e)
    (hnests : Nests T (fun j => opens j ∨ Opening T k j) k m) :
    Passage T (s.origin k n) false [s'.arena.size]
      { s' with arena := (s'.arena.add s.current.start stop (.suite statements)).2 } := by
  have hregion := h.addSuite hT hline hstatements hstop hclosed
  have hlength := h.start.length_following
  have hlength' := h.place.length_following
  have hle := h.le
  refine ⟨m, _, hregion, hnests, fun h => absurd h Bool.false_ne_true, ?_,
    hT.start_le h.start.get h.place.get h.le, fun x r hnew hkind =>
      hregion.start_le hT hnew hkind r⟩
  show s'.following.length ≤ n
  omega

/-- Statements take a token at least. -/
theorem Rule.parse_statement_lt (hT : Tape length T) (hw : 4 * n + 4 < fuel) (hs : s.At T k)
    (hwritten : s.current.lexeme.IsWritten) (hroom : s.following.length ≤ n) :
    ((Rule.parse fuel .statement).run s).2.following.length < s.following.length := by
  have hroom : 4 * s.spot.after.length + Rule.statement.rank < fuel := by
    show 4 * s.following.length + 4 < fuel
    omega
  obtain ⟨q, -, hq, -, -, hlt⟩ :=
    RulesAlike.parse (Frame.onto s.arena) (Nat.le_refl fuel) (Nat.le_refl fuel) .statement s.spot
      hroom ⟨rfl, Token.endsLine_of_isWritten hwritten⟩ _ _ (s.beside_bare (hs.cursor hT))
  have hafter : ((Rule.parse fuel .statement).run s).2.following =
      q.after.map (Token.shift 0) ++ [] := hq.after'
  rw [hafter, List.append_nil, List.length_map]
  exact hlt rfl

/-- A parser that repeats a step ends where the step yields nothing, if each other one takes a
token. -/
theorem Parser.many_ends {α : Type} {step : Parser (Option α)} {I J : List α → ParseState → Prop}
    (hsome : ∀ as s a t, I as s → step.run s = (some a, t) →
      I (as ++ [a]) t ∧ t.following.length < s.following.length)
    (hnone : ∀ as s t, I as s → step.run s = (none, t) → J as t) (hs : I [] s) :
    J ((many step).run s).1 ((many step).run s).2 := by
  have hrounds : ∀ n s as, s.following.length < n → I as s →
      ∃ more t u, Rounds step s more t ∧ step.run t = (none, u) ∧ J (as ++ more) u := by
    intro n
    induction n with
    | zero => exact fun s as hlt => absurd hlt (Nat.not_lt_zero _)
    | succ n ih =>
      intro s as hlt hI
      generalize hrun : step.run s = r
      obtain ⟨r, t⟩ := r
      cases r with
      | none => exact ⟨[], s, t, .done, hrun, (List.append_nil as).symm ▸ hnone as s t hI hrun⟩
      | some a =>
        obtain ⟨hI', hless⟩ := hsome as s a t hI hrun
        obtain ⟨more, u, v, hrest, hend, hJ⟩ := ih t (as ++ [a]) (by omega) hI'
        exact ⟨a :: more, u, v, .round hrun hless hrest, hend, List.append_cons as a more ▸ hJ⟩
  obtain ⟨as, t, u, hrounds, hend, hJ⟩ := hrounds _ s [] (Nat.lt_succ_self _) hs
  obtain ⟨x, hrepeats, hrun⟩ := hrounds.many
  rw [hrun, hrepeats.run_of_none hend, List.append_nil]
  exact hJ

/-- Statements are read up to the dedentation of their block. -/
theorem Region.of_block (hT : Tape length T) (hcall : RulesPassage T fuel) (hw : 4 * n + 4 < fuel)
    (hs : s.At T (m + 1)) (hindent : kindAt T m = some .indent) (hroom : s.following.length ≤ n) :
    ∃ e opens, Region T s ((many (Grammar.blockItem (Rule.parse fuel))).run s).2 (m + 1) (e + 1)
      (((many (Grammar.blockItem (Rule.parse fuel))).run s).1.filterMap id) opens ∧
      Closes T opens m e := by
  have hstart : Passage T (s.origin (m + 1) n) false ([].filterMap id) s :=
    ⟨m + 1, _, .begin hs (fun h => absurd h Bool.false_ne_true) hroom⟩
  refine many_ends (I := fun items t => Passage T (s.origin (m + 1) n) false (items.filterMap id) t)
    (J := fun items t => ∃ e opens, Region T s t (m + 1) (e + 1) (items.filterMap id) opens ∧
      Closes T opens m e) ?_ ?_ hstart
  · intro items t item u h hrun
    rw [List.filterMap_append]
    rcases Grammar.blockItem_cases (Rule.parse fuel) t with
      ⟨hwritten, hitem⟩ | ⟨-, hitem⟩ | ⟨-, v, -, hitem⟩ | ⟨hdedent, hend, v, hsame, hitem⟩
    · -- A statement is read.
      cases hrun.symm.trans hitem
      obtain ⟨k, opens, hk⟩ := id h
      refine ⟨?_, Rule.parse_statement_lt hT hw hk.region.place hwritten hk.room⟩
      refine (h.append hT fun k hk _ hroom => hcall.statement n hw t k hk hwritten hroom).mono
        (fun root hroot => List.mem_append.2 (List.mem_append.1 hroot).symm) id
    · cases hrun.symm.trans hitem
    · cases hrun.symm.trans hitem
    · -- A token is passed over.
      cases hrun.symm.trans hitem
      have hv := h.same hT hsame
      obtain ⟨k, opens, hk⟩ := id hv
      have hdedent : v.current.kind ≠ .dedent := hsame.current ▸ hdedent
      have hend : v.current.kind ≠ .endOfStream := hsame.current ▸ hend
      have hlength := hk.region.place.length_following
      have hnext := (hk.region.place.advanced hT hend).1.length_following
      rw [hsame.following] at hlength
      refine ⟨(hv.advanced hT hdedent fun h => absurd h Bool.false_ne_true).mono
        (fun root hroot => ?_) id, by omega⟩
      exact (List.mem_append.1 hroot).resolve_right List.not_mem_nil
  · rintro items t u ⟨k, opens, hk⟩ hrun
    rcases Grammar.blockItem_cases (Rule.parse fuel) t with
      ⟨-, hitem⟩ | ⟨hend, -⟩ | ⟨hdedent, v, hsame, hitem⟩ | ⟨-, -, v, -, hitem⟩
    · cases hrun.symm.trans hitem
    · exact absurd hend (hT.nests_ne_end hindent hk.nests hk.region.place.get)
    · -- The block is closed.
      cases hrun.symm.trans hitem
      have hend : t.current.kind ≠ .endOfStream := fun hend => by cases hdedent.symm.trans hend
      obtain ⟨hnext, harena⟩ := hk.region.place.advanced hT hend
      have hstep : Region T t u k (k + 1) [] fun _ => False :=
        .of_same hk.region.place (hnext.same hsame.current hsame.following hsame.previous)
          (Nat.le_succ k) (hsame.arena.trans harena)
      refine ⟨k, _, (hk.region.append hT hstep).mono fun root hroot => ?_, ?_, ?_⟩
      · exact List.mem_append_left _ hroot
      · exact hk.nests.congr fun j _ _ => (or_false _).symm ▸ Iff.rfl
      · exact hk.region.place.kindAt.trans (congrArg some hdedent)
    · cases hrun.symm.trans hitem

end Block

/-! ## Suites -/

namespace Passage

variable {length fuel n k j : Nat} {T : List Token} {s t : ParseState} {line : Bool}
  {roots statements : List NodeId} {stop : Nat}

/-- The simple statements of a line are read up to its end, which is taken. -/
theorem statementList (hT : Tape length T) (hw : 4 * n + 3 < fuel) (hs : s.At T k)
    (hline : InLine T k) (hroom : s.following.length ≤ n)
    (hends : endsLine s.current.kind = false) :
    Passage T (s.origin k n) false [((Grammar.statementList (Rule.parse fuel)).run s).1]
      ((Grammar.statementList (Rule.parse fuel)).run s).2 := by
  have hread := Passages.run_line hT .statementLine hw hs hline hroom fun _ => hends
  rw [Grammar.statementList_eq]
  exact (Passages.consume hT (by decide)).bind (fun _ => .ret (fun _ => id) id) _ hread

/-- A suite without a block of its own is read. -/
theorem suite_of_not_opening (hT : Tape length T) (h : Passage T (s.origin k n) line roots t)
    (hline : InLine T k) (hroom : s.following.length ≤ n)
    (hstatements : ∀ c ∈ statements, c ∈ roots) (hstop : stop ≤ t.current.start)
    (hnone : ∀ m, ¬ Opening T k m) :
    Passage T (s.origin k n) false
      [((addNode s.current.start stop (.suite statements)).run t).1]
      ((addNode s.current.start stop (.suite statements)).run t).2 := by
  obtain ⟨m, opens, h⟩ := h
  refine h.region.passage_suite hT hline hroom hstatements hstop
    (fun j hj => absurd hj (hnone j)) ?_
  exact h.nests.congr fun i _ _ => ⟨.inl, fun hor => hor.resolve_right (hnone i)⟩

/-- A suite on the line of its colon is read. -/
theorem suiteLine (hT : Tape length T) (hw : 4 * n + 3 < fuel)
    (h : Passage T (s.origin k n) true [] t) (hline : InLine T k) (hroom : s.following.length ≤ n)
    (hstop : stop ≤ t.current.start) (hnone : ∀ m, ¬ Opening T k m) :
    Passage T (s.origin k n) false
      [((Grammar.suiteLine (Rule.parse fuel) s.current.start stop).run t).1]
      ((Grammar.suiteLine (Rule.parse fuel) s.current.start stop).run t).2 := by
  cases hends : endsLine t.current.kind with
  | true =>
    have hrun : (Grammar.suiteLine (Rule.parse fuel) s.current.start stop).run t =
        (addNode s.current.start stop (.suite [])).run t := by
      show ((if endsLine t.current.kind then _ else _ : Parser NodeId)).run t = _
      rw [hends]
      rfl
    rw [hrun]
    exact h.suite_of_not_opening hT hline hroom (fun _ hc => absurd hc List.not_mem_nil) hstop hnone
  | false =>
    have hrun : (Grammar.suiteLine (Rule.parse fuel) s.current.start stop).run t =
        (addNode s.current.start stop
          (.suite [((Grammar.statementList (Rule.parse fuel)).run t).1])).run
          ((Grammar.statementList (Rule.parse fuel)).run t).2 := by
      show ((if endsLine t.current.kind then _ else _ : Parser NodeId)).run t = _
      rw [hends]
      rfl
    have hlist := h.append hT fun j hj hjline hroom =>
      Passage.statementList hT hw hj (hjline rfl) hroom hends
    obtain ⟨j, opens, hj⟩ := h
    obtain ⟨_, _, hlater⟩ :=
      Passage.statementList hT hw hj.region.place (hj.inLine rfl) hj.room hends
    rw [hrun]
    exact hlist.suite_of_not_opening hT hline hroom (fun _ hc => hc)
      (Nat.le_trans hstop hlater.first) hnone

/-- An indented suite is read with all of its block. -/
theorem suiteBlock {m n' : Nat} (hT : Tape length T) (hcall : RulesPassage T fuel)
    (hw : 4 * n' + 4 < fuel) (hs : s.At T k) (ht : t.At T (m + 1)) (harena : t.arena = s.arena)
    (hline : InLine T k) (hroom : s.following.length ≤ n) (hroom' : t.following.length ≤ n')
    (hopen : Opening T k m) :
    Passage T (s.origin k n) false
      [((Grammar.suiteBlock (Rule.parse fuel) s.current.start).run t).1]
      ((Grammar.suiteBlock (Rule.parse fuel) s.current.start).run t).2 := by
  have hbounds := hopen.bounds
  have h : Region T s t k (m + 1) [] fun _ => False := .of_same hs ht (by omega) harena
  obtain ⟨e, opens, hblock, hcloses⟩ := Region.of_block hT hcall hw ht hopen.indent hroom'
  generalize hrun : (many (Grammar.blockItem (Rule.parse fuel))).run t = r at hblock
  obtain ⟨items, u⟩ := r
  have hregion := h.append hT hblock
  have hsuite : (Grammar.suiteBlock (Rule.parse fuel) s.current.start).run t =
      (addNode s.current.start ((((items.filterMap id).getLast?.bind u.arena.range?).map
        TextRange.stop).getD s.current.start) (.suite (items.filterMap id))).run u := by
    exact run_bind_of hrun
  rw [hsuite]
  refine hregion.passage_suite hT hline hroom (fun c hc => hc) ?_ (fun j hj => ?_) ?_
  · cases hlast : (items.filterMap id).getLast?.bind u.arena.range? with
    | none => exact hT.start_le hs.get hblock.place.get hregion.le
    | some r =>
      obtain ⟨last, hmem, hr⟩ := Option.bind_eq_some_iff.1 hlast
      obtain ⟨-, r', hr', -, hstop⟩ := hblock.spans last (List.mem_of_getLast? hmem) last .refl
      obtain rfl := Option.some.inj (hr.symm.trans hr')
      exact hstop
  · obtain rfl := hj.unique hopen
    exact ⟨e, rfl, hcloses.nests.congr fun _ _ _ => (false_or _).symm ▸ Iff.rfl, hcloses.dedent⟩
  · -- The block is the only one that is opened besides those within it.
    refine (Nests.of_opening hopen).trans (.block hopen.indent (.inr hopen)
      (hcloses.nests.congr fun j hj _ => ?_) hcloses.dedent (.done _))
    refine ⟨fun h => .inl (.inr h), fun hor => ?_⟩
    rcases hor with (hfalse | hopens) | hj'
    · exact hfalse.elim
    · exact hopens
    · have := hj'.unique hopen
      omega

/-- A suite is read behind its colon. -/
theorem suiteBody (hT : Tape length T) (hcall : RulesPassage T fuel) (hw : 4 * n + 3 < fuel)
    (hs : s.At T k) (ht : t.At T j) (harena : t.arena = s.arena) (hline : InLine T k)
    (hnext : InLine T j) (hroom : s.following.length ≤ n) (hstop : stop ≤ t.current.start)
    (hj : kindAt T k = some .colon ∧ j = k + 1 ∨ kindAt T k ≠ some .colon ∧ j = k) :
    Passage T (s.origin k n) false
      [((Grammar.suiteBody (Rule.parse fuel) s.current.start stop).run t).1]
      ((Grammar.suiteBody (Rule.parse fuel) s.current.start stop).run t).2 := by
  have hkj : k ≤ j ∧ j ≤ k + 1 := by omega
  have hlength := hs.length_following
  have hlength' := ht.length_following
  have hbegin : Passage T (s.origin k n) true [] t := by
    refine ⟨j, _, .of_same hs ht hkj.1 harena, .of_plain hkj.1 fun m u hkm hmj hu => ?_,
      fun _ => hnext, ?_, hT.start_le hs.get ht.get hkj.1, fun x _ hnew hkind => ?_⟩
    · have hkm : k ≤ m := hkm
      obtain rfl : m = k := by omega
      exact hline u hu
    · show t.following.length ≤ n
      omega
    · exact absurd (Arena.lt_size_of_kind? (harena ▸ hkind)) (Nat.not_lt_of_le hnew)
  by_cases hnewLine : t.current.kind = .newLine
  · have hkind : kindAt T j = some .newLine := ht.kindAt.trans (congrArg some hnewLine)
    have hplain : t.current.kind ≠ .dedent ∧ t.current.kind ≠ .endOfStream := by
      rw [hnewLine]
      decide
    obtain ⟨ht', harena'⟩ := ht.advanced hT hplain.2
    by_cases hindent : (Parser.advanced t).current.kind = TokenKind.indent
    · -- The block is indented.
      have hopen : Opening T k (j + 1) := (Opening.iff_of_head hj).2
        ⟨rfl, hkind, ht'.kindAt.trans (congrArg some hindent)⟩
      obtain ⟨ht'', harena''⟩ := ht'.advanced hT (by rw [hindent]; decide)
      have hlength'' := ht''.length_following
      rw [Grammar.run_suiteBody_block hnewLine hindent]
      exact suiteBlock hT hcall (show 4 * (n - 1) + 4 < fuel by omega) hs ht''
        (harena''.trans (harena'.trans harena)) hline hroom (by omega) hopen
    · have hnone : ∀ m, ¬ Opening T k m := fun m hm => hindent <| Option.some.inj <|
        ht'.kindAt.symm.trans ((Opening.iff_of_head hj).1 hm).2.2
      have hnext : Passage T (s.origin k n) false [] ((fault .missingBlock).run
          (Parser.advanced t)).2 := Passages.fault hT .missingBlock _
        (hbegin.advanced hT hplain.1 fun h => absurd h Bool.false_ne_true)
      rw [Grammar.run_suiteBody_missing hnewLine hindent]
      refine hnext.suite_of_not_opening hT hline hroom (fun _ hc => absurd hc List.not_mem_nil) ?_
        hnone
      rw [(same_fault .missingBlock (Parser.advanced t)).current]
      exact Nat.le_trans hstop (hT.start_le ht.get ht'.get (Nat.le_succ j))
  · have hnone : ∀ m, ¬ Opening T k m := fun m hm => hnewLine <| Option.some.inj <|
      ht.kindAt.symm.trans ((Opening.iff_of_head hj).1 hm).2.1
    rw [Grammar.run_suiteBody_line hnewLine]
    exact suiteLine hT hw hbegin hline hroom hstop hnone

/-- A suite is read. -/
theorem suite (hT : Tape length T) (hcall : RulesPassage T fuel) (hw : 4 * n + 3 < fuel)
    (hs : s.At T k) (hline : InLine T k) (hroom : s.following.length ≤ n) :
    Passage T (s.origin k n) false [((Grammar.suite (Rule.parse fuel)).run s).1]
      ((Grammar.suite (Rule.parse fuel)).run s).2 := by
  by_cases hcolon : s.current.kind = .colon
  · have hplain : ¬ s.current.IsLayout := by
      rintro (hkind | hkind | hkind) <;> cases hcolon.symm.trans hkind
    obtain ⟨hs', harena⟩ := hs.advanced hT (by rw [hcolon]; decide)
    rw [Grammar.run_suite_colon hcolon]
    exact suiteBody hT hcall hw hs hs' harena hline (hT.inLine_succ hs.get hplain) hroom
      (hT.stop_le hs.get hs'.get (Nat.lt_succ_self k))
      (.inl ⟨hs.kindAt.trans (congrArg some hcolon), rfl⟩)
  · have hsame := same_fault (.spelling ":") s
    rw [Grammar.run_suite_bare hcolon]
    refine suiteBody hT hcall hw hs (hs.same hsame.current hsame.following hsame.previous)
      hsame.arena hline hline hroom (Nat.le_of_eq ?_) (.inr ⟨fun hkind => hcolon ?_, rfl⟩)
    · exact congrArg Token.start hsame.current.symm
    · exact Option.some.inj (hs.kindAt.symm.trans hkind)

end Passage

end TypeProbe
