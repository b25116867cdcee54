import TypeProbe.Proofs.Joined.Shifts
import TypeProbe.Proofs.Token.LineFeeds
import TypeProbe.Proofs.Token.Readings

/-!
# The tokens of joined texts

`Layout.through` is the state of the lexer behind a text, before the end of the text brings
anything. A text that ends in a line feed may leave the lexer as it was in the beginning
(`Layout.IsFresh`). Then the tokens of another text behind it are those of that text alone, some
bytes further back (`Tokens.ofText_append`): no piece of the first text changes, since a piece that
takes the last line feed leaves the lexer fresh only if it is the end of a line
(`Layout.absorb_feed`), and from a fresh state the second text is read as from the beginning.
-/

namespace TypeProbe

/-- A piece corresponds to itself if lexemes do. -/
theorem Piece.Beside.refl {R : Lexeme → Lexeme → Prop} (hR : ∀ x, R x x) (p : Piece) :
    Piece.Beside R p p := by
  cases p with
  | blank => exact .skipped (.inl rfl)
  | comment => exact .skipped (.inr (.inl rfl))
  | lineJoin => exact .skipped (.inr (.inr rfl))
  | lineEnd kind => exact .lineEnd (hR _)
  | lexeme x => exact .lexeme (hR x) fun _ => rfl

namespace Layout

variable {l : Layout} {c : Char} {start : Nat} {text more : List Char}

/-- Goes through a text that stands at an offset, without what the end of the text brings. -/
def through (l : Layout) (start : Nat) : List Char → Layout
  | [] => l
  | c :: rest =>
    let sized := Piece.at c rest
    let length := c.utf8Size + byteLength (rest.take sized.more)
    (l.absorb c start length sized.piece).through (start + length) (rest.drop sized.more)
termination_by text => text.length
decreasing_by
  simp only [List.length_drop, List.length_cons]
  omega

/-- The lexer is as before the first character, but for the tokens: it is at the start of a line,
and no bracket and no block is open. -/
structure IsFresh (l : Layout) : Prop where
  /-- No bracket is open. -/
  brackets : l.brackets = 0
  /-- No block is open. -/
  indents : l.indents = []
  /-- A line begins. -/
  leading : l.leading = some 0
  /-- The line has no tokens. -/
  lineHasTokens : l.lineHasTokens = false

/-- How many bytes a piece has and how many are left behind it. -/
theorem length_piece (start : Nat) (c : Char) (rest : List Char) (more : Nat) :
    start + (c.utf8Size + byteLength (rest.take more)) + byteLength (rest.drop more) =
      start + byteLength (c :: rest) := by
  have hsplit := byteLength_append (rest.take more) (rest.drop more)
  rw [List.take_append_drop] at hsplit
  rw [byteLength_cons]
  omega

/-- A text is gone through before its end brings anything. -/
theorem readFrom_eq_through (l : Layout) (start : Nat) (text : List Char) :
    l.readFrom start text = (l.through start text).finish (start + byteLength text) := by
  fun_induction l.readFrom start text with
  | case1 l start => rw [through, byteLength_nil, Nat.add_zero]
  | case2 l start c rest sized length ih => rw [ih, through, ← length_piece start c rest sized.more]

/-- Reading a text goes on behind its first piece. -/
theorem readFrom_piece {tail rest : List Char} {piece : Piece}
    (h : Piece.at c (tail ++ rest) = ⟨piece, tail.length⟩) :
    l.readFrom start (c :: (tail ++ rest)) =
      (l.absorb c start (byteLength (c :: tail)) piece).readFrom (start + byteLength (c :: tail))
        rest := by
  rw [readFrom, h]
  dsimp only
  rw [List.take_left, List.drop_left, byteLength_cons]

/-- Going through a text goes on behind its first piece. -/
theorem through_piece {tail rest : List Char} {piece : Piece}
    (h : Piece.at c (tail ++ rest) = ⟨piece, tail.length⟩) :
    l.through start (c :: (tail ++ rest)) =
      (l.absorb c start (byteLength (c :: tail)) piece).through (start + byteLength (c :: tail))
        rest := by
  rw [through, h]
  dsimp only
  rw [List.take_left, List.drop_left, byteLength_cons]

/-- A piece that takes the line feed at the end of a text leaves the lexer fresh only if it is a
line end of two characters. -/
theorem absorb_feed {length : Nat} (hmore : ¬ (Piece.at c (text ++ ['\n'])).more ≤ text.length)
    (h : (l.absorb c start length (Piece.at c (text ++ ['\n'])).piece).IsFresh) :
    c = '\r' ∧ text = [] := by
  have hlength : (text ++ ['\n']).length ≤ (Piece.at c (text ++ ['\n'])).more := by
    rw [List.length_append, List.length_singleton]
    omega
  rcases Piece.accounted_at c (text ++ ['\n']) with ⟨x, hx, -⟩ | ⟨-, hskipped⟩
  · rw [hx] at h
    cases h.lineHasTokens
  rw [List.take_of_length_le hlength] at hskipped
  generalize List.drop _ _ = rest at hskipped
  generalize hstretch : c :: (text ++ ['\n']) = stretch at hskipped
  cases hskipped with
  | blank => simp at hstretch
  | lineEnd hends =>
    subst hstretch
    simpa [lineEnds] using hends
  | comment inside =>
    obtain ⟨-, rfl⟩ := List.cons.inj hstretch
    exact absurd (.inl rfl) (inside '\n' (List.mem_append_right _ (List.mem_singleton_self _)))
  | lineJoin hends =>
    obtain ⟨rfl, rfl⟩ := List.cons.inj hstretch
    have hpiece : (Piece.at '\\' (text ++ ['\n'])).piece = .lineJoin := by
      cases text with
      | nil => rfl
      | cons d text =>
        obtain ⟨rfl, rfl⟩ : d = '\r' ∧ text = [] := by simpa [lineEnds] using hends
        rfl
    rw [hpiece] at h
    have hleading := h.leading
    rw [absorb, leaveBlanks] at hleading
    split at hleading
    · rename_i hnone
      rw [hnone] at hleading
      cases hleading
    · cases hleading

/-- If a text that ends in a line feed leaves the lexer fresh, what comes behind is read after
it. -/
theorem readFrom_feed (h : (l.through start (text ++ ['\n'])).IsFresh) :
    l.readFrom start (text ++ '\n' :: more) =
      (l.through start (text ++ ['\n'])).readFrom (start + byteLength (text ++ ['\n'])) more := by
  induction hlength : text.length using Nat.strong_induction_on generalizing l start text with
  | _ length ih =>
  subst hlength
  -- A line end behind which nothing is left of the first text.
  have hlast : ∀ {c : Char} {tail : List Char} {piece : Piece},
      (∀ rest, Piece.at c (tail ++ rest) = ⟨piece, tail.length⟩) →
      l.readFrom start (c :: (tail ++ more)) =
        (l.through start (c :: tail)).readFrom (start + byteLength (c :: tail)) more := by
    intro c tail piece hpiece
    have hthrough := @through_piece l c start tail [] piece (hpiece [])
    rw [List.append_nil, through] at hthrough
    rw [readFrom_piece (hpiece more), hthrough]
  cases text with
  | nil => exact @hlast '\n' [] (.lineEnd .lineFeed) fun _ => rfl
  | cons c text =>
    rw [List.cons_append] at h
    rw [List.cons_append, List.cons_append]
    by_cases hmore : (Piece.at c (text ++ ['\n'])).more ≤ text.length
    · -- The piece ends before the line feed, and the rest is shorter.
      have hsame := @Piece.at_feed c text more hmore
      generalize hpiece : Piece.at c (text ++ ['\n']) = sized at hmore hsame
      obtain ⟨piece, n⟩ := sized
      obtain ⟨tail, rest, rfl, rfl⟩ : ∃ tail rest, text = tail ++ rest ∧ tail.length = n :=
        ⟨_, _, (List.take_append_drop n text).symm, List.length_take_of_le hmore⟩
      rw [List.append_assoc] at hpiece hsame h
      rw [List.append_assoc, List.append_assoc, through_piece hpiece, readFrom_piece hsame]
      rw [through_piece hpiece] at h
      have hshorter : rest.length < (c :: (tail ++ rest)).length := by
        rw [List.length_cons, List.length_append]
        omega
      rw [ih rest.length hshorter h rfl, ← List.cons_append, @byteLength_append (c :: tail),
        Nat.add_assoc]
    · -- The piece takes the line feed, which is the second character of a line end.
      have hlength : (text ++ ['\n']).length ≤ (Piece.at c (text ++ ['\n'])).more := by
        rw [List.length_append, List.length_singleton]
        omega
      rw [through, List.drop_of_length_le hlength, through] at h
      obtain ⟨rfl, rfl⟩ := absorb_feed hmore h
      exact @hlast '\r' ['\n'] (.lineEnd .carriageReturnLineFeed) fun _ => rfl

/-! ## The same text further back -/

/-- A text is read in the same way some bytes further back. -/
theorem readFrom_shift {bytes : Nat} {base : List Token} (l : Layout) (start : Nat)
    (text : List Char) : ∀ l', Beside (fun t t' => t' = t.shift bytes) base l l' →
      Beside (fun t t' => t' = t.shift bytes) base (l.readFrom start text)
        (l'.readFrom (start + bytes) text) := by
  have himplied : ∀ start, Implied (fun t t' => t' = t.shift bytes) start (start + bytes) :=
    fun _ _ _ => rfl
  fun_induction l.readFrom start text with
  | case1 l start =>
    intro l' h
    rw [readFrom]
    exact h.finish (himplied start)
  | case2 l start c rest sized length ih =>
    intro l' h
    have hpiece : Piece.Beside (fun x x' => (⟨⟨start + bytes, length⟩, x'⟩ : Token) =
        Token.shift bytes ⟨⟨start, length⟩, x⟩) sized.piece sized.piece := by
      refine .refl (fun _ => ?_) sized.piece
      rfl
    rw [readFrom, Nat.add_right_comm]
    exact ih _ (h.absorb (himplied start) c hpiece)

/-- What the end of a text brings to a fresh lexer is the end of the stream. -/
theorem IsFresh.finish (h : l.IsFresh) (stop : Nat) :
    (l.finish stop).tokens = ⟨⟨stop, 0⟩, .endOfStream⟩ :: l.tokens := by
  simp [Layout.finish, h.lineHasTokens, h.indents, closeBlocks, push]

end Layout

/-- A text that ends in a line feed and leaves the lexer fresh has tokens of its own, and the end of
the stream. The tokens of a text behind it come after them, as many bytes further back. -/
theorem Tokens.ofText_append {line more : List Char}
    (h : (Layout.initial.through 0 (line ++ ['\n'])).IsFresh) :
    let base := (Layout.initial.through 0 (line ++ ['\n'])).tokens.reverse
    let bytes := byteLength (line ++ ['\n'])
    ofText (line ++ ['\n']) = base ++ [⟨⟨bytes, 0⟩, .endOfStream⟩] ∧
      ofText (line ++ '\n' :: more) = base ++ (ofText more).map (Token.shift bytes) := by
  refine ⟨?_, ?_⟩
  · rw [ofText, Layout.readFrom_eq_through, h.finish, Nat.zero_add, List.reverse_cons]
  · have hbeside : Layout.Beside (fun t t' => t' = t.shift (byteLength (line ++ ['\n'])))
        (Layout.initial.through 0 (line ++ ['\n'])).tokens Layout.initial
        (Layout.initial.through 0 (line ++ ['\n'])) :=
      ⟨⟨[], .nil, rfl⟩, h.brackets, h.indents, h.leading, h.lineHasTokens⟩
    obtain ⟨tokens', hshift, htokens⟩ := (Layout.initial.readFrom_shift 0 more _ hbeside).tokens
    have hmap : tokens' = (Layout.initial.readFrom 0 more).tokens.map
        (Token.shift (byteLength (line ++ ['\n']))) := by
      rw [← List.forall₂_eq_eq_eq, List.forall₂_map_right_iff]
      exact hshift.flip
    show (Layout.initial.readFrom 0 (line ++ '\n' :: more)).tokens.reverse = _
    rw [Layout.readFrom_feed h, htokens, hmap, List.reverse_append, ← List.map_reverse]
    rfl

end TypeProbe
