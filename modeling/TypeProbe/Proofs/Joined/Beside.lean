import TypeProbe.Proofs.Joined.Shifts
import TypeProbe.Tree.Parsed

/-!
# Parsers side by side

The same lines are read twice: as a text of their own, and behind and before other lines. `Frame`
says what the second reading has more, and `Beside` compares the states of the two parsers. They see
the same tokens up to the end of a line, or up to the end of the stream (`Frame.Runs`), and where
they are is a `Spot`. `Alike` says of two parsers that they go side by side from one spot to another
one; the rules of this module follow the shapes that parsers are written in.

What a parser does may not depend on what comes after the last token they both see, so that token is
not taken (`Alike.advance`) unless it ends the stream (`Alike.advancePast`). The parsers repeat
steps with different bounds for the number of rounds. A spot has fewer tokens before it after every
round, and both bounds are above that number.
-/

open TypeProbe.Parser

namespace TypeProbe

/-- What the second of two parsers has more than the first one. -/
structure Frame where
  /-- How many bytes its tokens stand further back. -/
  bytes : Nat
  /-- The nodes that it had before. -/
  front : Arena
  /-- The faults that it had noted before, the last first. -/
  faults : List Diagnostic
  /-- The faults noted before are not where one may be noted now. -/
  before : ∀ d ∈ faults, d.range.start < bytes
  /-- Whether both parsers go on to the end of the stream, or to the end of a line only. -/
  whole : Bool
  /-- The tokens that the first parser has after those that both see. -/
  rest : List Token
  /-- The tokens that the second parser has after those that both see. -/
  rest' : List Token
  /-- Where tokens stand. -/
  place : TextRange → Prop
  /-- How many nested expressions the parsers may be in. -/
  level : Nat → Prop
  /-- Up to the limit they may go one level further in. -/
  deeper : ∀ n, n < depthLimit → level n → level (n + 1)

namespace Frame

variable (F : Frame)

/-- How much greater the ids of the second parser are. -/
abbrev ids : Nat := F.front.size

/-- The kind of the last token that both parsers see. -/
def ending : TokenKind := if F.whole then .endOfStream else .newLine

/-- Whether a token is the last that both parsers see. -/
def IsEnd (t : Token) : Prop := t.kind = F.ending

/-- A token and what comes after it run to the last token that both parsers see. -/
inductive Runs : Token → List Token → Prop where
  | last {t : Token} (h : F.IsEnd t) : Runs t []
  | cons {t u : Token} {us : List Token} (h : ¬ F.IsEnd t) (hstream : t.kind ≠ .endOfStream)
    (hu : Runs u us) : Runs t (u :: us)

variable {F}

/-- The last token ends a line. -/
theorem IsEnd.endsLine {t : Token} (h : F.IsEnd t) : endsLine t.kind = true := by
  rw [h, ending]
  split <;> rfl

/-- A token within a line is not the last one. -/
theorem not_isEnd {t : Token} (h : Parser.endsLine t.kind = false) : ¬ F.IsEnd t :=
  fun hend => Bool.false_ne_true (h.symm.trans hend.endsLine)

/-- Where both parsers see a line only, nothing comes after its end. -/
theorem Runs.nil_of_endsLine (hF : F.whole = false) {t : Token} {us : List Token}
    (h : F.Runs t us) (hline : Parser.endsLine t.kind = true) : t.kind = .newLine ∧ us = [] := by
  have hending : F.ending = .newLine := by
    rw [ending, hF]
    rfl
  cases h with
  | last hend => exact ⟨hend.trans hending, rfl⟩
  | cons hnot hstream _ =>
    rcases Bool.or_eq_true_iff.1 hline with hkind | hkind
    · exact absurd ((eq_of_beq hkind).trans hending.symm) hnot
    · exact absurd (eq_of_beq hkind) hstream

/-- Up to the end of the stream, the last token is the one that ends the stream. -/
theorem isEnd_whole (hF : F.whole = true) {t : Token} : F.IsEnd t ↔ t.kind = .endOfStream := by
  rw [IsEnd, ending, if_pos hF]

variable (F) in
/-- A token of this kind may be taken: it does not end a line, or both parsers go on to the end of
the stream. -/
def Takes (kind : TokenKind) : Prop :=
  Parser.endsLine kind = false ∨ F.whole = true ∧ kind ≠ .endOfStream

/-- A token that may be taken is not the last one. -/
theorem Takes.not_isEnd {kind : TokenKind} (h : F.Takes kind) {t : Token} (ht : t.kind = kind) :
    ¬ F.IsEnd t := by
  subst ht
  rcases h with hline | ⟨hF, hne⟩
  · exact Frame.not_isEnd hline
  · exact fun hend => hne ((isEnd_whole hF).1 hend)

end Frame

/-- A place between two tokens of both parsers. -/
structure Spot where
  /-- The next token. -/
  token : Token
  /-- The tokens after it, up to the last that both parsers see. -/
  after : List Token
  /-- So many nodes have been built at least. -/
  nodes : Nat
  /-- How many nested expressions it is in. -/
  depth : Nat

/-- One place comes before another one, or is the same, and is as deep in expressions. -/
abbrev Spot.Before (p q : Spot) : Prop :=
  q.after.length ≤ p.after.length ∧ p.nodes ≤ q.nodes ∧
    (q.after.length = p.after.length → q.token = p.token) ∧ q.depth = p.depth

variable {F : Frame} {p q u : Spot}

theorem Spot.Before.refl (p : Spot) : p.Before p :=
  ⟨Nat.le_refl _, Nat.le_refl _, fun _ => rfl, rfl⟩

theorem Spot.Before.trans (hpq : p.Before q) (hqu : q.Before u) : p.Before u := by
  refine ⟨by omega, by omega, fun h => ?_, by omega⟩
  rw [hqu.2.2.1 (by omega), hpq.2.2.1 (by omega)]

/-- One place is after the next token of another one. -/
structure Spot.Next (p q : Spot) : Prop where
  /-- The tokens before it are one fewer. -/
  after : p.after = q.token :: q.after
  /-- The nodes are the same. -/
  nodes : q.nodes = p.nodes
  /-- The depth is the same. -/
  depth : q.depth = p.depth

/-- After the next token there are fewer tokens. -/
theorem Spot.Next.lt (h : p.Next q) : q.after.length < p.after.length := by
  rw [h.after]
  exact Nat.lt_succ_self _

theorem Spot.Next.before (h : p.Next q) : p.Before q :=
  ⟨Nat.le_of_lt h.lt, Nat.le_of_eq h.nodes.symm, fun heq => absurd heq (Nat.ne_of_lt h.lt), h.depth⟩

/-- Two parsers are at the same place, the second one behind what it had before. -/
structure Beside (F : Frame) (p : Spot) (s s' : ParseState) : Prop where
  /-- The first parser is at the place. -/
  token : s.current = p.token
  /-- So is the second one. -/
  token' : s'.current = p.token.shift F.bytes
  /-- The first parser sees the tokens after it. -/
  after : s.following = p.after ++ F.rest
  /-- So does the second one. -/
  after' : s'.following = p.after.map (Token.shift F.bytes) ++ F.rest'
  /-- The tokens run to the last that both see. -/
  runs : F.Runs p.token p.after
  /-- Tokens stand where they may. -/
  places : ∀ t ∈ p.token :: p.after, F.place t.range
  /-- Both parsers took the last token at the same place, unless the first one has taken none. -/
  previous : max F.bytes s'.previousStop = s.previousStop + F.bytes
  /-- The second parser has the nodes of the first one behind those it had before. -/
  arena : s'.arena = s.arena.behind F.bytes F.front
  /-- So many nodes have been built. -/
  nodes : p.nodes ≤ s.arena.size
  /-- The second parser has the faults of the first one behind those it had before. -/
  diagnostics : s'.diagnostics = s.diagnostics.map (Diagnostic.shift F.bytes) ++ F.faults
  /-- Faults were noted where tokens stand. -/
  placed : ∀ d ∈ s.diagnostics, F.place d.range
  /-- The first parser is in as many nested expressions. -/
  depth : s.depth = p.depth
  /-- So is the second one. -/
  depth' : s'.depth = p.depth
  /-- They may be in as many. -/
  level : F.level p.depth

/-- A token that does not end the stream is taken if another one comes after it. -/
theorem Parser.advanced_of_following {s : ParseState} {next : Token} {rest : List Token}
    (h : s.following = next :: rest) (hstream : s.current.kind ≠ .endOfStream) :
    advanced s =
      { s with current := next, following := rest, previousStop := s.current.stop } := by
  unfold advanced
  rw [h]
  exact if_neg hstream

/-- At the end of a line nothing is passed over. -/
theorem Parser.skippedLine_of_endsLine {s : ParseState} (h : endsLine s.current.kind = true)
    {fuel : Nat} : skippedLine fuel s = s := by
  cases fuel with
  | zero => rfl
  | succ fuel => exact if_pos h

/-- Within a line its tokens are passed over one by one. -/
theorem Parser.skippedLine_succ {s : ParseState} (h : ¬ endsLine s.current.kind = true)
    {fuel : Nat} : skippedLine (fuel + 1) s = skippedLine fuel (advanced s) := if_neg h

namespace Beside

variable {s s' : ParseState}

/-- A node that has been built is found by both parsers. -/
theorem range? (h : Beside F p s s') {id : NodeId} (hid : id < p.nodes) :
    ∃ r, s.arena.range? id = some r ∧ s'.arena.range? (id + F.ids) = some (r.shift F.bytes) := by
  have hget := Arena.get?_eq_some_iff.2 ⟨Nat.lt_of_lt_of_le hid h.nodes, rfl⟩
  have hrange := congrArg (Option.map Node.range) hget
  refine ⟨_, hrange, ?_⟩
  rw [h.arena, Arena.range?_behind]
  exact congrArg (Option.map (TextRange.shift F.bytes)) hrange

/-- Nodes may change in the same way. -/
theorem withArena (h : Beside F p s s') {a a' : Arena} {widened widened' : Bool}
    (ha : a' = a.behind F.bytes F.front) (hsize : a.size = s.arena.size) :
    Beside F p { s with arena := a, widenedOwned := widened }
      { s' with arena := a', widenedOwned := widened' } :=
  ⟨h.token, h.token', h.after, h.after', h.runs, h.places, h.previous, ha, hsize ▸ h.nodes,
    h.diagnostics, h.placed, h.depth, h.depth', h.level⟩

/-- Where the last token stops is never before where the second parser began. -/
theorem max_previous (h : Beside F p s s') (n : Nat) :
    max s'.previousStop (n + F.bytes) = max s.previousStop n + F.bytes := by
  have hprevious := h.previous
  omega

/-- The next token may be taken unless it is the last one. -/
theorem advanced (h : Beside F p s s') (hend : ¬ F.IsEnd p.token) :
    ∃ q, p.Next q ∧ Beside F q (Parser.advanced s) (Parser.advanced s') := by
  obtain ⟨t, after, nodes, depth⟩ := p
  have htoken : s.current = t := h.token
  have htoken' : s'.current = t.shift F.bytes := h.token'
  cases h.runs with
  | last hlast => exact absurd hlast hend
  | @cons _ u us hnot hstream hruns =>
    refine ⟨⟨u, us, nodes, depth⟩, ⟨rfl, rfl, rfl⟩, ?_⟩
    have hafter : s.following = u :: (us ++ F.rest) := h.after
    have hafter' : s'.following = u.shift F.bytes ::
      (us.map (Token.shift F.bytes) ++ F.rest') := h.after'
    rw [Parser.advanced_of_following hafter (htoken ▸ hstream),
      Parser.advanced_of_following hafter' (htoken' ▸ hstream), htoken, htoken', Token.stop_shift]
    exact ⟨rfl, rfl, rfl, rfl, hruns, fun v hv => h.places v (List.mem_cons_of_mem _ hv),
      Nat.max_eq_right (Nat.le_add_left ..), h.arena, h.nodes, h.diagnostics, h.placed, h.depth,
      h.depth', h.level⟩

/-- The last token of a stream is not taken away. -/
theorem advanced_last (h : Beside F p s s') (hF : F.whole = true) (hend : F.IsEnd p.token) :
    Beside F p (Parser.advanced s) (Parser.advanced s') := by
  have hstream : s.current.kind = .endOfStream := by
    rw [h.token]
    exact (Frame.isEnd_whole hF).1 hend
  have hstream' : s'.current.kind = .endOfStream := by
    rw [h.token', Token.kind_shift]
    exact (Frame.isEnd_whole hF).1 hend
  have hsame : ∀ {s : ParseState}, s.current.kind = .endOfStream → Parser.advanced s = s := by
    intro s hs
    unfold Parser.advanced
    split
    · rfl
    · exact if_pos hs
  rw [hsame hstream, hsame hstream']
  exact h

/-- Lines are passed over side by side. -/
theorem skippedLine (h : Beside F p s s') {fuel fuel' : Nat} (hfuel : p.after.length ≤ fuel)
    (hfuel' : p.after.length ≤ fuel') :
    ∃ q, p.Before q ∧ endsLine q.token.kind = true ∧
      Beside F q (Parser.skippedLine fuel s) (Parser.skippedLine fuel' s') := by
  induction hafter : p.after generalizing p s s' fuel fuel' with
  | nil =>
    have hline : endsLine p.token.kind = true := by
      have hruns := h.runs
      rw [hafter] at hruns
      cases hruns with
      | last hend => exact hend.endsLine
    refine ⟨p, .refl p, hline, ?_⟩
    rw [Parser.skippedLine_of_endsLine (h.token ▸ hline),
      Parser.skippedLine_of_endsLine (h.token' ▸ hline)]
    exact h
  | cons v vs ih =>
    by_cases hline : endsLine p.token.kind = true
    · refine ⟨p, .refl p, hline, ?_⟩
      rw [Parser.skippedLine_of_endsLine (h.token ▸ hline),
        Parser.skippedLine_of_endsLine (h.token' ▸ hline)]
      exact h
    · obtain ⟨u, hu, hadvanced⟩ := h.advanced fun hend => hline hend.endsLine
      obtain ⟨rfl, rfl⟩ := List.cons.inj (hafter.symm.trans hu.after)
      rw [hafter, List.length_cons] at hfuel hfuel'
      obtain ⟨fuel, rfl⟩ := Nat.exists_eq_add_of_le' (Nat.le_trans (Nat.le_add_left 1 _) hfuel)
      obtain ⟨fuel', rfl⟩ := Nat.exists_eq_add_of_le' (Nat.le_trans (Nat.le_add_left 1 _) hfuel')
      obtain ⟨q, hq, hend, hbeside⟩ := ih hadvanced (Nat.le_of_succ_le_succ hfuel)
        (Nat.le_of_succ_le_succ hfuel') rfl
      refine ⟨q, hu.before.trans hq, hend, ?_⟩
      rw [Parser.skippedLine_succ (h.token ▸ hline), Parser.skippedLine_succ (h.token' ▸ hline)]
      exact hbeside

/-- A fault is noted by both parsers or by none. -/
theorem faultAt (h : Beside F p s s') {range : TextRange} (hplace : F.place range)
    (f : SyntaxFault) :
    Beside F p ((Parser.faultAt range f).run s).2
      ((Parser.faultAt (range.shift F.bytes) f).run s').2 := by
  -- A fault noted before by the second parser only does not stand at the same place.
  have hsame : s'.diagnostics.head?.map (·.range.start) = some (range.shift F.bytes).start ↔
      s.diagnostics.head?.map (·.range.start) = some range.start := by
    rw [h.diagnostics]
    cases s.diagnostics with
    | cons d ds => simp [Diagnostic.shift]
    | nil =>
      refine iff_of_false (fun hhead => ?_) (by simp)
      obtain ⟨d, hd, heq⟩ := Option.map_eq_some_iff.1 hhead
      have hlt := F.before d (List.mem_of_mem_head? hd)
      rw [TextRange.start_shift] at heq
      omega
  show Beside F p (if _ then s else _) (if _ then s' else _)
  by_cases hhead : s.diagnostics.head?.map (·.range.start) = some range.start
  · rw [if_pos hhead, if_pos (hsame.2 hhead)]
    exact h
  · rw [if_neg hhead, if_neg (mt hsame.1 hhead)]
    refine ⟨h.token, h.token', h.after, h.after', h.runs, h.places, h.previous, h.arena, h.nodes,
      ?_, ?_, h.depth, h.depth', h.level⟩
    · simp [h.diagnostics, Diagnostic.shift]
    · intro d hd
      rcases List.mem_cons.1 hd with rfl | hd
      · exact hplace
      · exact h.placed d hd

end Beside

/-- Two parsers go side by side from a place to some other one, where the result of the second is
what `g` makes of the result of the first. -/
def Alike {α β : Type} (F : Frame) (p : Spot) (g : α → β) (x : Parser α) (x' : Parser β)
    (post : α → Spot → Prop) : Prop :=
  ∀ s s', Beside F p s s' → ∃ q, p.Before q ∧ Beside F q (x.run s).2 (x'.run s').2 ∧
    (x'.run s').1 = g (x.run s).1 ∧ post (x.run s).1 q

/-- Two parsers build the same node, which the second gives a greater id. -/
abbrev AlikeNode (F : Frame) (p : Spot) (x x' : Parser NodeId) : Prop :=
  Alike F p (· + F.ids) x x' fun id q => id < q.nodes

/-- Two parsers build the same node or none, which the second gives a greater id. -/
abbrev AlikeOption (F : Frame) (p : Spot) (x x' : Parser (Option NodeId)) : Prop :=
  Alike F p (Option.map (· + F.ids)) x x' fun _ _ => True

/-- Two parsers build the same nodes, which the second gives greater ids. -/
abbrev AlikeNodes (F : Frame) (p : Spot) (x x' : Parser (List NodeId)) : Prop :=
  Alike F p (List.map (· + F.ids)) x x' fun _ _ => True

namespace Alike

variable {α β γ δ : Type} {g : α → β} {h : γ → δ} {x : Parser α} {x' : Parser β} {a : α} {b : β}
  {post : α → Spot → Prop} {goal : γ → Spot → Prop} {k : α → Parser γ} {k' : β → Parser δ}

/-! ## Shapes of parsers -/

/-- Results may be returned. -/
theorem ret (hb : b = g a) (hpost : post a p) :
    Alike F p g (pure a : Parser α) (pure b : Parser β) post :=
  fun _ _ hs => ⟨p, .refl p, hs, hb, hpost⟩

/-- One parser may come after another one. -/
theorem bind (hx : Alike F p g x x' post)
    (hk : ∀ a q, p.Before q → post a q → Alike F q h (k a) (k' (g a)) goal) :
    Alike F p h (x >>= k) (x' >>= k') goal := by
  intro s s' hs
  obtain ⟨q, hpq, hq, hvalue, hpost⟩ := hx s s' hs
  obtain ⟨u, hqu, hu, hresult⟩ := hk _ q hpq hpost _ _ hq
  rw [← hvalue] at hu hresult
  exact ⟨u, hpq.trans hqu, hu, hresult⟩

/-- More may be known than is needed. -/
theorem weaken {post' : α → Spot → Prop} (hx : Alike F p g x x' post)
    (hpost : ∀ a q, p.Before q → post a q → post' a q) : Alike F p g x x' post' := by
  intro s s' hs
  obtain ⟨q, hpq, hq, hvalue, h⟩ := hx s s' hs
  exact ⟨q, hpq, hq, hvalue, hpost _ q hpq h⟩

/-- The next token stands where tokens stand. -/
theorem withPlace (hx : F.place p.token.range → Alike F p g x x' post) : Alike F p g x x' post :=
  fun s s' hs => hx (hs.places _ List.mem_cons_self) s s' hs

/-- Results may be changed. -/
theorem map {f : α → γ} {f' : β → δ} (hx : Alike F p g x x' post)
    (hf : ∀ a, f' (g a) = h (f a)) (hpost : ∀ a q, p.Before q → post a q → goal (f a) q) :
    Alike F p h (f <$> x) (f' <$> x') goal := by
  intro s s' hs
  obtain ⟨q, hpq, hq, hvalue, h⟩ := hx s s' hs
  exact ⟨q, hpq, hq, (congrArg f' hvalue).trans (hf _), hpost _ q hpq h⟩

/-- A node may be built where one may be missing. -/
theorem mapSome {x x' : Parser NodeId} (hx : AlikeNode F p x x') :
    AlikeOption F p (some <$> x) (some <$> x') := map hx (fun _ => rfl) fun _ _ _ _ => trivial

/-- Either of two parsers may go on, the same one for both. -/
theorem ite {c : Prop} [Decidable c] {y : Parser α} {y' : Parser β}
    (hx : c → Alike F p g x x' post) (hy : ¬ c → Alike F p g y y' post) :
    Alike F p g (if c then x else y) (if c then x' else y') post := by
  split
  · exact hx ‹_›
  · exact hy ‹_›

/-- Either of two parsers may go on, if both conditions are the same. -/
theorem iteOf {c c' : Bool} {y : Parser α} {y' : Parser β} (hc : c' = c)
    (hx : c = true → Alike F p g x x' post) (hy : c = false → Alike F p g y y' post) :
    Alike F p g (if c then x else y) (if c' then x' else y') post := by
  subst hc
  exact ite hx fun h => hy (Bool.not_eq_true _ ▸ h)

/-- Parsers may look at their states. -/
theorem inspect {k : ParseState → Parser α} {k' : ParseState → Parser β}
    (hk : ∀ s s', Beside F p s s' → Alike F p g (k s) (k' s') post) :
    Alike F p g (get >>= k) (get >>= k') post :=
  fun s s' hs => hk s s' hs s s' hs

/-- Parsers may change their states. -/
theorem change {f f' : ParseState → ParseState} {k : PUnit → Parser γ} {k' : PUnit → Parser δ}
    (hf : ∀ s s', Beside F p s s' → Beside F p (f s) (f' s'))
    (hk : Alike F p h (k ⟨⟩) (k' ⟨⟩) goal) :
    Alike F p h (modify f >>= k) (modify f' >>= k') goal :=
  fun s s' hs => hk _ _ (hf s s' hs)

end Alike

end TypeProbe
