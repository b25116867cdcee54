import TypeProbe.Proofs.Token.Balance

/-!
# Where blocks are opened and closed

A token that opens or closes a block stands at the start of a line: the token before it, if there is
one, is a layout token too. Tokens that are written in the text have bytes, and so have the ends of
lines, but for the one that the end of the text brings. `Layout.Opens` is what the lexer keeps for
this, and `Tokens.ofText_stands` says it of the tokens of every text.
-/

namespace TypeProbe

/-- A token that opens or closes a block. -/
def Token.IsBlockMark (t : Token) : Prop := t.kind = .indent ∨ t.kind = .dedent

instance (t : Token) : Decidable t.IsBlockMark :=
  inferInstanceAs (Decidable (t.kind = .indent ∨ t.kind = .dedent))

/-- A token that opens or closes a block is a layout token. -/
theorem Token.IsBlockMark.isLayout {t : Token} (h : t.IsBlockMark) : t.IsLayout := .inr h

/-- Where a token stands among those before it. -/
structure Token.Stands (before : List Token) (t : Token) : Prop where
  /-- Blocks are opened and closed where a line starts. -/
  mark : t.IsBlockMark → ∀ u, before.getLast? = some u → u.IsLayout
  /-- Only closed blocks and the end of the stream come after the end of a line without bytes. -/
  bytes : t.kind ≠ .dedent → t.kind ≠ .endOfStream →
    ∀ u ∈ before, u.kind = .newLine → u.start < u.stop
  /-- What is written in the text has bytes. -/
  written : t.lexeme.IsWritten → t.start < t.stop

/-- The end of a line stands after those that have bytes. -/
theorem Token.stands_newLine {before : List Token}
    (hbefore : ∀ u ∈ before, u.kind = .newLine → u.start < u.stop) (range : TextRange)
    (kind : NewLineKind) : (Token.mk range (.newLine kind)).Stands before where
  mark hmark := by rcases hmark with hkind | hkind <;> cases hkind
  bytes _ _ := hbefore
  written := False.elim

/-- The end of the stream stands anywhere. -/
theorem Token.stands_endOfStream (before : List Token) (range : TextRange) :
    (Token.mk range .endOfStream).Stands before where
  mark hmark := by rcases hmark with hkind | hkind <;> cases hkind
  bytes _ hne := absurd rfl hne
  written := False.elim

namespace Layout

/-- What the lexer keeps of the line that it is on. -/
structure Opens (l : Layout) : Prop where
  /-- On a line without tokens the last token is a layout token. -/
  last : l.lineHasTokens = false → ∀ u, l.tokens.head? = some u → u.IsLayout
  /-- Blanks are measured on lines without tokens. -/
  leading : l.leading ≠ none → l.lineHasTokens = false
  /-- The ends of lines have bytes. -/
  bytes : ∀ u ∈ l.tokens.reverse, u.kind = .newLine → u.start < u.stop
  /-- Tokens stand where they may. -/
  stands : EachAfter Token.Stands l.tokens.reverse

/-- A token that has bytes, or ends no line, may be put behind those whose line ends have bytes. -/
theorem bytes_concat {tokens : List Token} {t : Token}
    (h : ∀ u ∈ tokens, u.kind = .newLine → u.start < u.stop)
    (ht : t.kind = .newLine → t.start < t.stop) :
    ∀ u ∈ tokens ++ [t], u.kind = .newLine → u.start < u.stop := by
  intro u hu
  rcases List.mem_append.1 hu with hu | hu
  · exact h u hu
  · exact List.mem_singleton.1 hu ▸ ht

namespace Opens

variable {l : Layout} {start : Nat}

/-- The lexer begins on a line without tokens. -/
theorem initial : Opens initial where
  last _ u hu := by cases hu
  leading _ := rfl
  bytes u hu := absurd hu List.not_mem_nil
  stands before t after h := by simp [Layout.initial] at h

/-- A block may be opened on a line without tokens. -/
theorem pushIndent (h : l.Opens) (hline : l.lineHasTokens = false) (start width : Nat) :
    ({ l.push start 0 (.indent width) with
        indents := width :: l.indents, leading := none } : Layout).Opens where
  last _ u hu := by
    obtain rfl := Option.some.inj hu
    exact .inr (.inl rfl)
  leading hne := absurd rfl hne
  bytes := by
    rw [push, List.reverse_cons]
    exact bytes_concat h.bytes fun hkind => by cases hkind
  stands := by
    rw [push, List.reverse_cons]
    refine h.stands.concat ⟨fun _ u hu => ?_, fun _ _ => h.bytes, False.elim⟩
    exact h.last hline u (List.getLast?_reverse ▸ hu)

/-- Blocks may be closed on a line without tokens, or behind the last line. -/
theorem closing (start : Nat) {tokens : List Token} (hstands : EachAfter Token.Stands tokens)
    (hlast : ∀ u, tokens.getLast? = some u → u.IsLayout) {lexemes : List Lexeme}
    (hlexemes : ∀ x ∈ lexemes, x.kind = .dedent) :
    EachAfter Token.Stands (tokens ++ lexemes.map (Token.mk ⟨start, 0⟩)) ∧
      ∀ u, (tokens ++ lexemes.map (Token.mk ⟨start, 0⟩)).getLast? = some u → u.IsLayout := by
  induction lexemes generalizing tokens with
  | nil => simpa using ⟨hstands, hlast⟩
  | cons x lexemes ih =>
    have hx : (Token.mk ⟨start, 0⟩ x).kind = .dedent := hlexemes x List.mem_cons_self
    have hnext : EachAfter Token.Stands (tokens ++ [⟨⟨start, 0⟩, x⟩]) :=
      hstands.concat ⟨fun _ => hlast, fun hne => absurd hx hne, fun hwritten =>
        absurd (.inr (.inr hx)) (Token.not_isLayout hwritten)⟩
    have hdedent : ∀ u, (tokens ++ [Token.mk ⟨start, 0⟩ x]).getLast? = some u → u.IsLayout := by
      intro u hu
      rw [List.getLast?_concat] at hu
      exact Option.some.inj hu ▸ .inr (.inr hx)
    rw [List.map_cons, List.append_cons]
    exact ih hnext hdedent fun y hy => hlexemes y (List.mem_cons_of_mem x hy)

/-- Taking note of a line's blanks opens a block, or closes some. -/
theorem indentTo (h : l.Opens) (hline : l.lineHasTokens = false) (start width : Nat) :
    ({ l.indentTo start width with leading := none } : Layout).Opens := by
  by_cases hwider : l.width < width
  · rw [Layout.indentTo, if_pos hwider]
    exact h.pushIndent hline start width
  · have hdedent : l.indentTo start width =
        { l with
          tokens := ((closeBlocks width l.indents).1.map (Token.mk ⟨start, 0⟩)).reverse ++ l.tokens
          indents := (closeBlocks width l.indents).2 } := by
      rw [Layout.indentTo, if_neg hwider]
      simp only [foldl_push]
    have hlast : ∀ u, l.tokens.reverse.getLast? = some u → u.IsLayout := fun u hu =>
      h.last hline u (List.getLast?_reverse ▸ hu)
    have hlexemes : ∀ x ∈ (closeBlocks width l.indents).1, x.kind = .dedent :=
      fun x hx => kind_of_mem_closeBlocks hx
    obtain ⟨hstands, hend⟩ := closing start h.stands hlast hlexemes
    rw [hdedent]
    refine ⟨fun _ u hu => hend u ?_, fun hne => absurd rfl hne, ?_, by simpa using hstands⟩
    · rw [← List.head?_reverse]
      simpa using hu
    · intro u hu
      rw [List.reverse_append, List.reverse_reverse] at hu
      rcases List.mem_append.1 hu with hu | hu
      · exact h.bytes u hu
      · obtain ⟨x, hx, rfl⟩ := List.mem_map.1 hu
        intro hkind
        cases hkind.symm.trans (hlexemes x hx)

/-- Leaving the blanks at the start of a line keeps what the lexer knows. -/
theorem leaveBlanks (h : l.Opens) (start : Nat) (counts : Bool) :
    (l.leaveBlanks start counts).Opens ∧ (l.leaveBlanks start counts).leading = none := by
  cases hwidth : l.leading with
  | none =>
    rw [Layout.leaveBlanks, hwidth]
    exact ⟨h, hwidth⟩
  | some width =>
    have hline := h.leading (by rw [hwidth]; exact Option.some_ne_none width)
    rw [Layout.leaveBlanks, hwidth]
    cases counts with
    | true => exact ⟨h.indentTo hline start width, rfl⟩
    | false => exact ⟨⟨h.last, fun hne => absurd rfl hne, h.bytes, h.stands⟩, rfl⟩

/-- Going past a piece that has bytes keeps what the lexer knows. -/
theorem absorb (h : l.Opens) (c : Char) (start length : Nat) (hlength : 0 < length) {piece : Piece}
    (hpiece : ∀ x, piece = .lexeme x → x.IsWritten) : (l.absorb c start length piece).Opens := by
  have hbytes : ∀ x, (Token.mk ⟨start, length⟩ x).start < (Token.mk ⟨start, length⟩ x).stop :=
    fun x => Nat.lt_add_of_pos_right hlength
  cases piece with
  | blank =>
    refine ⟨h.last, fun hmore => h.leading fun hnone => hmore ?_, h.bytes, h.stands⟩
    simp [Layout.absorb, hnone]
  | comment => exact (h.leaveBlanks start false).1
  | lineJoin => exact (h.leaveBlanks start true).1
  | lexeme x =>
    obtain ⟨hleave, hleading⟩ := h.leaveBlanks start true
    have hmark : ¬ (Token.mk ⟨start, length⟩ x).IsBlockMark := fun hmark =>
      Token.not_isLayout (hpiece x rfl) hmark.isLayout
    refine ⟨(fun h => by cases h), fun hne => absurd hleading hne, ?_, ?_⟩
    · simp only [Layout.absorb, push, List.reverse_cons]
      exact bytes_concat hleave.bytes fun _ => hbytes x
    · simp only [Layout.absorb, push, List.reverse_cons]
      exact hleave.stands.concat ⟨fun h => absurd h hmark, fun _ _ => hleave.bytes,
        fun _ => hbytes x⟩
  | lineEnd kind =>
    obtain ⟨hleave, hleading⟩ := h.leaveBlanks start false
    simp only [Layout.absorb]
    generalize l.leaveBlanks start false = l' at hleave hleading ⊢
    by_cases hopen : l'.brackets ≠ 0
    · rw [if_pos hopen]
      exact hleave
    rw [if_neg hopen]
    by_cases hline : l'.lineHasTokens = true
    · rw [if_pos hline]
      refine ⟨fun _ u hu => ?_, fun _ => rfl, ?_, ?_⟩
      · obtain rfl := Option.some.inj hu
        exact .inl rfl
      · rw [push, List.reverse_cons]
        exact bytes_concat hleave.bytes fun _ => hbytes _
      · rw [push, List.reverse_cons]
        exact hleave.stands.concat (Token.stands_newLine hleave.bytes _ kind)
    · rw [if_neg hline]
      exact ⟨fun _ => hleave.last (Bool.not_eq_true _ ▸ hline), fun _ => rfl, hleave.bytes,
        hleave.stands⟩

/-- Behind the text the last line ends, all blocks are closed, and the stream ends. -/
theorem finish (h : l.Opens) (stop : Nat) :
    EachAfter Token.Stands (l.finish stop).tokens.reverse := by
  -- The end of the last line comes first.
  have hline : ∃ tokens : List Token,
      (if l.lineHasTokens then l.push stop 0 (.newLine .implied) else l) =
        { l with tokens := tokens.reverse } ∧ EachAfter Token.Stands tokens ∧
      ∀ u, tokens.getLast? = some u → u.IsLayout := by
    by_cases hline : l.lineHasTokens = true
    · refine ⟨l.tokens.reverse ++ [⟨⟨stop, 0⟩, .newLine .implied⟩], ?_, ?_, fun u hu => ?_⟩
      · rw [if_pos hline]
        simp [push]
      · exact h.stands.concat (Token.stands_newLine h.bytes _ .implied)
      · rw [List.getLast?_concat] at hu
        exact Option.some.inj hu ▸ .inl rfl
    · refine ⟨l.tokens.reverse, by rw [if_neg hline, List.reverse_reverse], h.stands, fun u hu => ?_⟩
      exact h.last (Bool.not_eq_true _ ▸ hline) u (List.getLast?_reverse ▸ hu)
  obtain ⟨tokens, htokens, hstands, hlast⟩ := hline
  obtain ⟨hclosed, -⟩ := closing stop hstands hlast fun x (hx : x ∈ (closeBlocks 0 l.indents).1) =>
    kind_of_mem_closeBlocks hx
  have hall : (l.finish stop).tokens.reverse =
      tokens ++ (closeBlocks 0 l.indents).1.map (Token.mk ⟨stop, 0⟩) ++
        [⟨⟨stop, 0⟩, .endOfStream⟩] := by
    simp only [Layout.finish, htokens, foldl_push]
    simp [push]
  rw [hall]
  exact hclosed.concat (Token.stands_endOfStream _ _)

/-- Reading a text keeps what the lexer knows, up to its end. -/
theorem readFrom (h : l.Opens) (start : Nat) (text : List Char) :
    EachAfter Token.Stands (l.readFrom start text).tokens.reverse := by
  fun_induction l.readFrom start text with
  | case1 l start => exact h.finish start
  | case2 l start c rest sized length ih =>
    have hpiece : ∀ x, sized.piece = .lexeme x → x.IsWritten := by
      intro x hx
      rcases Piece.accounted_at c rest with ⟨y, hy, hwritten⟩ | ⟨hskipped, -⟩
      · obtain rfl := Piece.lexeme.inj (hy.symm.trans hx)
        exact hwritten
      · exact absurd hx (hskipped x)
    exact ih (h.absorb c start length (Nat.add_pos_left c.utf8Size_pos _) hpiece)

end Opens

end Layout

/-- The tokens of every text stand where they may: blocks are opened and closed where a line starts,
and what is written in the text has bytes. -/
theorem Tokens.ofText_stands (text : List Char) : EachAfter Token.Stands (ofText text) :=
  Layout.Opens.initial.readFrom 0 text

end TypeProbe
