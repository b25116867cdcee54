import TypeProbe.Proofs.Joined.Tokens
import TypeProbe.Proofs.Token.Balance

/-!
# Lines without blocks

`IsPlain` is said of a text of whole lines on none of which a block begins: the lexer is fresh
behind it, and no line starts with a token that opens a block (`lineHeads`, `Token.OpensBlock`).
Such a text has no blocks at all. A line that is indented starts with a token for it, so there is no
token that ends a block either (`Layout.Flat`), and the tokens of the text are those of its lines,
each with the end of the line as its last token (`IsPlain.tokens`).
-/

namespace TypeProbe

/-- The tokens that come first on their line: those behind the end of another line, and the first
one of all if a line begins there. -/
def lineHeads : (atStart : Bool) → List Token → List Token
  | _, [] => []
  | atStart, t :: tokens =>
    (if atStart then [t] else []) ++ lineHeads (t.kind == .newLine) tokens

/-- The words that statements with blocks start with. -/
def Keyword.blockWords : List Keyword :=
  [.define, .class, .if, .while, .for, .try, .with, .async]

/-- A token that a line with a block may start with: the indentation of a block, the mark of a
decorator, or the word of a statement. -/
def Token.OpensBlock (t : Token) : Prop :=
  t.kind = .indent ∨ t.operator? = some .matrixMultiply ∨
    ∃ word ∈ Keyword.blockWords, t.keyword? = some word

instance (t : Token) : Decidable t.OpensBlock :=
  inferInstanceAs (Decidable (_ ∨ _ ∨ ∃ word ∈ Keyword.blockWords, t.keyword? = some word))

/-- A text of whole lines on none of which a block begins. The lines may have any other faults. -/
structure IsPlain (text : List Char) : Prop where
  /-- The last line ends. -/
  ends : text.getLast? = some '\n'
  /-- The lexer is as it was in the beginning. -/
  fresh : (Layout.initial.through 0 text).IsFresh
  /-- No line starts with a token that opens a block. -/
  heads : ∀ t ∈ lineHeads true (Tokens.ofText text), ¬ t.OpensBlock

/-- A line begins behind some tokens. -/
def StartsLine (before : List Token) : Prop := ∀ t ∈ before.getLast?, t.kind = .newLine

/-- A token where a line begins is the first one of its line. -/
theorem mem_lineHeads {before after : List Token} {t : Token} {atStart : Bool}
    (h : StartsLine before) (hstart : before = [] → atStart = true) :
    t ∈ lineHeads atStart (before ++ t :: after) := by
  induction before generalizing atStart with
  | nil => simp [lineHeads, hstart rfl]
  | cons u before ih =>
    refine List.mem_append_right _ (ih (fun v hv => h v ?_) fun hnil => ?_)
    · rw [Option.mem_def, List.getLast?_cons, Option.mem_def.1 hv]
      rfl
    · exact beq_iff_eq.2 (h u (hnil ▸ rfl))

/-- The first tokens of the lines are among all tokens. -/
theorem mem_of_mem_lineHeads {tokens : List Token} {t : Token} {atStart : Bool}
    (h : t ∈ lineHeads atStart tokens) : t ∈ tokens := by
  induction tokens generalizing atStart with
  | nil => exact h
  | cons u tokens ih =>
    rcases List.mem_append.1 h with h | h
    · cases atStart with
      | false => cases h
      | true => exact List.mem_cons.2 (.inl (List.mem_singleton.1 h))
    · exact List.mem_cons_of_mem _ (ih h)

/-- What stands in a relation to the tokens before it does so if less comes after. -/
theorem EachAfter.of_append {P : List Token → Token → Prop} {tokens more : List Token}
    (h : EachAfter P (tokens ++ more)) : EachAfter P tokens :=
  fun before t after heq => h before t (after ++ more) (by rw [heq, List.append_assoc]; rfl)

/-- A lexeme that a piece of a text is worth is written there. -/
theorem Piece.isWritten_at {c : Char} {rest : List Char} {x : Lexeme}
    (h : (Piece.at c rest).piece = .lexeme x) : x.IsWritten := by
  rcases Piece.accounted_at c rest with ⟨y, hy, hwritten⟩ | ⟨hskipped, -⟩
  · obtain rfl := Piece.lexeme.inj (hy.symm.trans h)
    exact hwritten
  · exact absurd h (hskipped x)

/-- Only the end of the stream is of its kind. -/
theorem Lexeme.eq_endOfStream {x : Lexeme} (h : x.kind = .endOfStream) : x = .endOfStream := by
  cases x with
  | endOfStream => rfl
  | _ => cases h

namespace Layout

variable {l : Layout} {start : Nat}

/-- What every piece keeps holds behind a text. -/
theorem through_induction {I : Nat → Layout → Prop}
    (hstep : ∀ l start c tail piece, (∀ x, piece = .lexeme x → x.IsWritten) → I start l →
      I (start + byteLength (c :: tail)) (l.absorb c start (byteLength (c :: tail)) piece))
    (text : List Char) (h : I start l) : I (start + byteLength text) (l.through start text) := by
  fun_induction l.through start text with
  | case1 l start => exact h
  | case2 l start c rest sized length ih =>
    rw [← length_piece start c rest sized.more]
    exact ih (hstep l start c _ _ (fun x hx => Piece.isWritten_at hx) h)

/-! ## Where tokens stand -/

/-- The tokens so far start before an offset, stop there at the latest, and none ends the stream. -/
def Within (stop : Nat) (l : Layout) : Prop :=
  ∀ t ∈ l.tokens, t.start < stop ∧ t.stop ≤ stop ∧ t.kind ≠ .endOfStream

/-- Behind a text its tokens stand within it. -/
theorem within_through (text : List Char) : Within (byteLength text) (initial.through 0 text) := by
  have hinitial : Within 0 initial := nofun
  rw [← Nat.zero_add (byteLength text)]
  refine through_induction (fun l start c tail piece hpiece hl => ?_) text hinitial
  have hpos := c.utf8Size_pos
  have hlength := byteLength_cons c tail
  have hstream : piece ≠ .lexeme .endOfStream := fun heq => hpiece _ heq
  have hkind : ∀ x : Lexeme, x ≠ .endOfStream → x.kind ≠ .endOfStream :=
    fun x hx h => hx (Lexeme.eq_endOfStream h)
  obtain ⟨l', ⟨added, hadded, htokens⟩, habsorb⟩ := @absorb_tokens l start c
    (byteLength (c :: tail)) piece hstream
  -- What is added stands where the piece does.
  have hbefore : Within (start + byteLength (c :: tail)) l' := by
    intro t ht
    rw [htokens] at ht
    rcases List.mem_append.1 ht with ht | ht
    · obtain ⟨hrange, hlexeme⟩ := hadded t (List.mem_reverse.1 ht)
      rw [Token.start, Token.stop, hrange]
      exact ⟨Nat.lt_add_of_pos_right (by omega), Nat.le_add_right .., hkind _ hlexeme⟩
    · obtain ⟨hstart, hstop, hend⟩ := hl t ht
      exact ⟨by omega, by omega, hend⟩
  rcases habsorb with ⟨-, heq⟩ | ⟨x, hx, heq⟩
  · rw [Within, heq]
    exact hbefore
  · rw [Within, heq]
    intro t ht
    rcases List.mem_cons.1 ht with rfl | ht
    · exact ⟨Nat.lt_add_of_pos_right (by omega), Nat.le_refl _, hkind x hx⟩
    · exact hbefore t ht

/-! ## Lines are not indented -/

/-- No block has been opened, so none has been closed, and where a line has no tokens yet it
begins. -/
structure Flat (l : Layout) : Prop where
  /-- No block is open. -/
  indents : l.indents = []
  /-- No block has been closed. -/
  dedent : ∀ t ∈ l.tokens, t.kind ≠ .dedent
  /-- A line without tokens begins behind the last token. -/
  last : l.lineHasTokens = false → StartsLine l.tokens.reverse
  /-- Blanks are measured on lines without tokens. -/
  leading : l.leading ≠ none → l.lineHasTokens = false

/-- No line starts with a token for indentation. -/
def Unindented (tokens : List Token) : Prop :=
  EachAfter (fun before t => StartsLine before → t.kind ≠ .indent) tokens

/-- Leaving the blanks at the start of a line that does not count adds no tokens. -/
theorem leaveBlanks_false (l : Layout) (start : Nat) :
    l.leaveBlanks start false = { l with leading := none } := by
  unfold leaveBlanks
  split
  · rename_i hleading
    rw [← hleading]
  · rfl

/-- Leaving the blanks at the start of a line adds no tokens if no line is indented. -/
theorem Flat.leaveBlanks (h : l.Flat)
    (hlines : Unindented (l.leaveBlanks start true).tokens.reverse) :
    l.leaveBlanks start true = { l with leading := none } := by
  unfold Layout.leaveBlanks at hlines ⊢
  split at hlines
  · rename_i hleading
    rw [← hleading]
  · rename_i width hleading
    have hline := h.last (h.leading (hleading ▸ Option.some_ne_none width))
    simp only [if_true, indentTo] at hlines ⊢
    by_cases hwidth : l.width < width
    · rw [if_pos hwidth] at hlines
      exact absurd rfl (hlines l.tokens.reverse _ [] List.reverse_cons hline)
    · rw [if_neg hwidth, h.indents]
      rfl

/-- A piece leaves the lexer flat if no line is indented. -/
theorem Flat.absorb (h : l.Flat) (c : Char) (length : Nat) {piece : Piece}
    (hpiece : ∀ x, piece = .lexeme x → x.IsWritten)
    (hlines : Unindented (l.absorb c start length piece).tokens.reverse) :
    (l.absorb c start length piece).Flat := by
  have hnone : ({ l with leading := none } : Layout).Flat :=
    ⟨h.indents, h.dedent, h.last, fun hne => absurd rfl hne⟩
  cases piece with
  | blank =>
    refine ⟨h.indents, h.dedent, h.last, fun hne => h.leading fun heq => hne ?_⟩
    simp [Layout.absorb, heq]
  | comment =>
    rw [Layout.absorb, leaveBlanks_false]
    exact hnone
  | lineJoin =>
    rw [Layout.absorb, h.leaveBlanks hlines]
    exact hnone
  | lexeme x =>
    have hbefore : Unindented (l.leaveBlanks start true).tokens.reverse :=
      EachAfter.of_append (List.reverse_cons ▸ hlines)
    have hwritten := hpiece x rfl
    rw [Layout.absorb, h.leaveBlanks hbefore]
    refine ⟨h.indents, fun t ht hdedent => ?_, (fun hline => by cases hline),
      fun hne => absurd rfl hne⟩
    rcases List.mem_cons.1 ht with rfl | ht
    · cases x with
      | dedent => exact hwritten
      | _ => cases hdedent
    · exact h.dedent t ht hdedent
  | lineEnd kind =>
    simp only [Layout.absorb, leaveBlanks_false]
    split
    · exact hnone
    split
    · refine ⟨h.indents, fun t ht hdedent => ?_, fun _ t ht => ?_, fun _ => rfl⟩
      · rcases List.mem_cons.1 ht with rfl | ht
        · cases hdedent
        · exact h.dedent t ht hdedent
      · rw [push, List.reverse_cons, List.getLast?_concat] at ht
        rw [← Option.some.inj ht]
        rfl
    · rename_i hline
      exact ⟨h.indents, h.dedent, fun _ => h.last (Bool.not_eq_true _ ▸ hline), fun _ => rfl⟩

/-- A text on which no line is indented leaves the lexer flat. -/
theorem flat_through {text : List Char}
    (hlines : Unindented (initial.through 0 text).tokens.reverse) :
    (initial.through 0 text).Flat := by
  have hinitial : Flat initial := ⟨rfl, nofun, fun _ => nofun, fun _ => rfl⟩
  refine @through_induction _ 0 (fun _ l => Unindented l.tokens.reverse → l.Flat)
    (fun l start c tail piece hpiece hl hlines => ?_) text (fun _ => hinitial) hlines
  -- The tokens before the piece are those of unindented lines, too.
  have hstream : piece ≠ .lexeme .endOfStream := fun heq => hpiece _ heq
  obtain ⟨l', ⟨added, -, htokens⟩, habsorb⟩ := @absorb_tokens l start c
    (byteLength (c :: tail)) piece hstream
  have hbefore : Unindented l'.tokens.reverse := by
    rcases habsorb with ⟨-, heq⟩ | ⟨x, -, heq⟩
    · exact heq ▸ hlines
    · rw [heq, List.reverse_cons] at hlines
      exact hlines.of_append
  rw [htokens, List.reverse_append] at hbefore
  exact (hl hbefore.of_append).absorb c _ hpiece hlines

end Layout

/-- Tokens of whole lines that stand before an offset, with no token for a block among them where a
line begins. -/
structure PlainLines (stop : Nat) (tokens : List Token) : Prop where
  /-- The tokens are none that end the stream or a block. -/
  kinds : ∀ t ∈ tokens, t.kind ≠ .endOfStream ∧ t.kind ≠ .dedent
  /-- They start and stop where they may. -/
  within : ∀ t ∈ tokens, t.start < stop ∧ t.stop ≤ stop
  /-- The last line ends. -/
  ends : StartsLine tokens
  /-- No line starts with a token that opens a block. -/
  heads : EachAfter (fun before t => StartsLine before → ¬ t.OpensBlock) tokens

/-- The tokens of a text of whole lines without blocks are those of its lines and the end of the
stream; the tokens of a text behind it come after those of its lines, as many bytes further back. -/
theorem IsPlain.tokens {text : List Char} (h : IsPlain text) : ∃ base : List Token,
    PlainLines (byteLength text) base ∧
      Tokens.ofText text = base ++ [⟨⟨byteLength text, 0⟩, .endOfStream⟩] ∧
      ∀ more, Tokens.ofText (text ++ more) =
        base ++ (Tokens.ofText more).map (Token.shift (byteLength text)) := by
  obtain ⟨line, rfl⟩ := List.getLast?_eq_some_iff.1 h.ends
  obtain ⟨htokens, -⟩ := @Tokens.ofText_append line [] h.fresh
  generalize hbase : (Layout.initial.through 0 (line ++ ['\n'])).tokens.reverse = base at htokens
  have hmem : ∀ t ∈ base, t ∈ (Layout.initial.through 0 (line ++ ['\n'])).tokens :=
    fun t ht => List.mem_reverse.1 (hbase ▸ ht)
  have hheads : EachAfter (fun before t => StartsLine before → ¬ t.OpensBlock) base := by
    intro before t after heq hline
    refine h.heads t ?_
    rw [htokens, heq, List.append_assoc]
    exact mem_lineHeads hline fun _ => rfl
  have hflat : (Layout.initial.through 0 (line ++ ['\n'])).Flat := by
    refine Layout.flat_through fun before t after heq hline hkind => ?_
    exact hheads before t after (hbase.symm.trans heq) hline (.inl hkind)
  have hwithin := Layout.within_through (line ++ ['\n'])
  refine ⟨base, ⟨fun t ht => ?_, fun t ht => ?_, ?_, hheads⟩, htokens, fun more => ?_⟩
  · exact ⟨(hwithin t (hmem t ht)).2.2, hflat.dedent t (hmem t ht)⟩
  · exact ⟨(hwithin t (hmem t ht)).1, (hwithin t (hmem t ht)).2.1⟩
  · exact hbase ▸ hflat.last h.fresh.lineHasTokens
  · rw [List.append_assoc, ← hbase]
    exact (@Tokens.ofText_append line more h.fresh).2

end TypeProbe
