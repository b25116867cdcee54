import TypeProbe.Proofs.Text.Lines
import TypeProbe.Proofs.Token.Balance
import TypeProbe.Proofs.Token.LineFeeds
import TypeProbe.Proofs.Token.Readings

/-!
# Tokens on their lines

The lexer and the line map look for the ends of lines apart from each other: the lexer in the pieces
that it takes, the map in one pass over the characters. They agree. A piece that becomes a token
other than a string holds no line end (`Piece.not_isLineEnd_of_lexeme`), so no line stops within it
(`not_lineStopsAt`); a piece that ends a line takes all that ends it (`Piece.ending_of_lineEnd`), so
a line stops where the piece does, and none before. `Tokens.ofText_onLines` says this of the tokens
of every text by the positions that its line map gives them.

The line feed of a carriage return and a line feed may be a piece of its own: a raw string takes the
character behind a backslash, which may be the carriage return. The line stops behind the line feed
all the same.
-/

namespace TypeProbe

variable {c : Char} {rest before word ending after text : List Char} {x more : Nat}

/-! ## Where lines stop -/

/-- Of two parts at the front of a text the one with fewer bytes is at the front of the other. -/
theorem prefix_of_byteLength_le {front front' : List Char} (h : front <+: text)
    (h' : front' <+: text) (hle : byteLength front ≤ byteLength front') : front <+: front' := by
  rcases List.prefix_or_prefix_of_prefix h h' with hfront | ⟨more, rfl⟩
  · exact hfront
  · cases more with
    | nil => exact ⟨[], by simp⟩
    | cons d more =>
      have hsize := d.utf8Size_pos
      rw [byteLength_append, byteLength_cons] at hle
      omega

/-- A line that stops within or behind a word stops at a break behind some characters of it. -/
theorem LineStopsAt.exists_breaks (h : LineStopsAt (before ++ word ++ after) x)
    (hlow : byteLength before < x) (hhigh : x ≤ byteLength (before ++ word)) :
    ∃ front back, word = front ++ back ∧ front ≠ [] ∧ BreaksLine (before ++ front) (back ++ after) ∧
      x = byteLength (before ++ front) := by
  obtain ⟨taken, left, htext, hbreaks, rfl⟩ := lineStopsAt_iff.1 h
  have htaken : taken <+: before ++ word ++ after := ⟨left, htext.symm⟩
  obtain ⟨front, rfl⟩ : before <+: taken :=
    prefix_of_byteLength_le ⟨word ++ after, by simp⟩ htaken (Nat.le_of_lt hlow)
  obtain ⟨back, hback⟩ := prefix_of_byteLength_le htaken ⟨after, rfl⟩ hhigh
  rw [List.append_assoc] at hback
  have hword : front ++ back = word := List.append_cancel_left hback
  subst hword
  have hleft : back ++ after = left := by
    simpa using htext
  refine ⟨front, back, rfl, ?_, hleft ▸ hbreaks, rfl⟩
  rintro rfl
  rw [List.append_nil] at hlow
  exact Nat.lt_irrefl _ hlow

/-- No line stops within or behind a word without line ends. -/
theorem not_lineStopsAt (hword : ∀ d ∈ word, ¬ IsLineEnd d) (hlow : byteLength before < x)
    (hhigh : x ≤ byteLength (before ++ word)) : ¬ LineStopsAt (before ++ word ++ after) x := by
  intro hstop
  obtain ⟨front, back, rfl, hne, hbreaks, -⟩ := hstop.exists_breaks hlow hhigh
  -- A break is behind a line end, which would be the last character of the front of the word.
  have hlast : ∀ d, (before ++ front).getLast? = some d → d ∈ front ++ back := fun d hd => by
    rw [List.getLast?_append_of_ne_nil _ hne] at hd
    exact List.mem_append_left back (List.mem_of_getLast? hd)
  rcases hbreaks with hfeed | ⟨hreturn, -⟩
  · exact hword _ (hlast _ hfeed) (.inl rfl)
  · exact hword _ (hlast _ hreturn) (.inr rfl)

/-- Of what ends a line nothing can be left out: the line stops behind all of it. -/
theorem le_of_lineStopsAt (hends : ending ∈ lineEnds)
    (hstop : LineStopsAt (before ++ ending ++ after) x) (hlow : byteLength before < x) :
    byteLength (before ++ ending) ≤ x := by
  by_contra hless
  obtain ⟨front, back, rfl, hne, hbreaks, rfl⟩ := hstop.exists_breaks hlow (by omega)
  have hback : back ≠ [] := by
    rintro rfl
    simp at hless
  -- So a carriage return would be parted from the line feed behind it.
  obtain ⟨rfl, rfl⟩ : front = ['\r'] ∧ back = ['\n'] := by
    simp only [lineEnds, List.mem_cons, List.not_mem_nil, or_false,
      List.append_eq_singleton_iff] at hends
    rcases hends with (⟨h, -⟩ | ⟨-, h⟩) | (⟨h, -⟩ | ⟨-, h⟩) | hpair
    · exact absurd h hne
    · exact absurd h hback
    · exact absurd h hne
    · exact absurd h hback
    · obtain ⟨d, front, rfl⟩ := List.exists_cons_of_ne_nil hne
      obtain ⟨e, back, rfl⟩ := List.exists_cons_of_ne_nil hback
      cases front with
      | nil => simpa using hpair
      | cons => simp at hpair
  simp [BreaksLine] at hbreaks

/-! ## Pieces -/

namespace Piece

/-- A piece that does not start with a line end ends no line, and if it becomes a token other than a
string it is on one line. -/
theorem onLine_of_not_isLineEnd {piece : Piece} (h : Piece.at c rest = ⟨piece, more⟩)
    (hc : ¬ IsLineEnd c) :
    (∀ kind, piece ≠ .lineEnd kind) ∧
      ∀ lexeme, piece = .lexeme lexeme → lexeme.kind ≠ .string →
        more ≤ (firstLine rest).length := by
  by_cases hjoin : c = '\\'
  · -- A backslash joins two lines, or is a token that is nothing more.
    subst hjoin
    by_cases hhead : ∀ d ∈ rest.head?, ¬ IsLineEnd d
    · rw [at_backslash hhead] at h
      obtain ⟨rfl, rfl⟩ := SizedPiece.mk.inj h
      refine ⟨fun kind => ?_, fun _ _ _ => Nat.zero_le _⟩
      exact Piece.noConfusion
    · push Not at hhead
      obtain ⟨d, hd, hend⟩ := hhead
      obtain ⟨rest, rfl⟩ := List.head?_eq_some_iff.1 hd
      have hpiece : piece = .lineJoin := by
        rcases hend with rfl | rfl
        · exact (SizedPiece.mk.inj h).1.symm
        · rw [at_backslash_return] at h
          exact (SizedPiece.mk.inj h).1.symm
      subst hpiece
      exact ⟨fun _ => Piece.noConfusion, fun _ => Piece.noConfusion⟩
  · rcases plain_or_opensString hc hjoin rest with
      ⟨-, hmore, hplain⟩ | ⟨front, letters, quote, behind, hopens⟩
    · rw [h] at hmore hplain
      refine ⟨?_, fun _ _ _ => hmore⟩
      rintro kind rfl
      exact hplain
    · have hread := hopens.reads rest behind hopens.front
      rw [h] at hread
      obtain ⟨rfl, -⟩ := SizedPiece.mk.inj hread
      refine ⟨fun _ => Piece.noConfusion, fun lexeme heq hstring => ?_⟩
      obtain rfl := Piece.lexeme.inj heq
      exact absurd rfl hstring

/-- A piece that becomes a token other than a string holds no line end. -/
theorem not_isLineEnd_of_lexeme {lexeme : Lexeme} (h : Piece.at c rest = ⟨.lexeme lexeme, more⟩)
    (hstring : lexeme.kind ≠ .string) : ∀ d ∈ c :: rest.take more, ¬ IsLineEnd d := by
  have hc : ¬ IsLineEnd c := by
    rintro (rfl | rfl)
    · cases h
    · rw [at_return] at h
      split at h <;> cases h
  have hmore := (onLine_of_not_isLineEnd h hc).2 lexeme rfl hstring
  intro d hd
  rcases List.mem_cons.1 hd with rfl | hd
  · exact hc
  · exact not_isLineEnd_of_mem_take hmore hd

/-- A piece that ends a line takes all that ends it. -/
theorem ending_of_lineEnd {kind : NewLineKind} (h : Piece.at c rest = ⟨.lineEnd kind, more⟩) :
    c :: rest.take more ∈ lineEnds ∧
      ((c :: rest.take more).getLast? = some '\r' → (rest.drop more).head? ≠ some '\n') := by
  by_cases hc : IsLineEnd c
  · rcases hc with rfl | rfl
    · obtain ⟨-, rfl⟩ := SizedPiece.mk.inj h
      exact ⟨by simp [lineEnds], by simp⟩
    · rw [at_return] at h
      split at h
      · obtain ⟨-, rfl⟩ := SizedPiece.mk.inj h
        obtain ⟨rest, rfl⟩ := List.head?_eq_some_iff.1 ‹_›
        exact ⟨by simp [lineEnds], by simp⟩
      · obtain ⟨-, rfl⟩ := SizedPiece.mk.inj h
        exact ⟨by simp [lineEnds], fun _ => by simpa⟩
  · exact absurd rfl ((onLine_of_not_isLineEnd h hc).1 kind)

end Piece

/-! ## Tokens -/

namespace Tokens

open LineMap (mem_lineStarts_ofText ascending_ofText)

/-- The lexer and the line map agree on lines: a token other than a string or the end of a line
starts and stops on one line, and the end of a line that takes bytes stops at the front of the line
behind the one on which it starts. -/
theorem ofText_onLines {text : List Char} {t : Token} (ht : t ∈ ofText text) :
    let lines := LineMap.ofText text
    (t.kind ≠ .string → t.kind ≠ .newLine →
        (lines.position t.start).line = (lines.position t.stop).line) ∧
      (t.kind = .newLine → t.start < t.stop →
        lines.position t.stop = ⟨(lines.position t.start).line + 1, 0⟩) := by
  intro lines
  have hlines : lines.Ascending := ascending_ofText text
  rcases hasSource_of_mem ht with
    ⟨himplied, hlength⟩ | ⟨before, c, rest, piece, more, htext, hpiece, hmakes, hrange⟩
  · -- What comes from the layout takes no bytes.
    have hstop : t.stop = t.start := by
      rw [Token.stop, TextRange.stop, hlength]
      rfl
    rw [hstop]
    exact ⟨fun _ _ => rfl, fun _ hlt => absurd hlt (Nat.lt_irrefl _)⟩
  have hsplit : text = before ++ (c :: rest.take more) ++ rest.drop more := by
    rw [htext, List.append_assoc, List.cons_append, List.take_append_drop]
  have hstart : t.start = byteLength before := congrArg TextRange.start hrange
  have hstop : t.stop = byteLength (before ++ c :: rest.take more) := by
    rw [Token.stop, hrange, TextRange.stop, byteLength_append]
  -- The starts of lines behind the start of the token are where lines of the text stop.
  have hstops : ∀ x ∈ lines.lineStarts, t.start < x →
      LineStopsAt (before ++ (c :: rest.take more) ++ rest.drop more) x := by
    intro x hx hlt
    rcases mem_lineStarts_ofText.1 hx with rfl | hstop
    · exact absurd hlt (Nat.not_lt_zero _)
    · exact hsplit ▸ hstop
  obtain ⟨range, lexeme⟩ := t
  cases hmakes with
  | lexeme =>
    have hle : (Token.mk range lexeme).start ≤ (Token.mk range lexeme).stop := Nat.le_add_right _ _
    refine ⟨fun hstring _ => hlines.line_eq hle fun x hx hlt => ?_, fun hkind => ?_⟩
    · by_contra hwithin
      refine not_lineStopsAt (Piece.not_isLineEnd_of_lexeme hpiece hstring) (hstart ▸ hlt) ?_
        (hstops x hx hlt)
      rw [← hstop]
      exact Nat.le_of_not_lt hwithin
    · -- What a piece becomes by itself is no end of a line.
      have hwritten := Piece.accounted_at c rest
      rw [hpiece] at hwritten
      rcases hwritten with ⟨x, hx, hwritten⟩ | ⟨hskipped, -⟩
      · obtain rfl := Piece.lexeme.inj hx
        exact absurd (Or.inl hkind) (Token.not_isLayout hwritten)
      · exact absurd rfl (hskipped lexeme)
  | lineEnd kind =>
    refine ⟨fun _ hkind => absurd rfl hkind, fun _ hlt => ?_⟩
    obtain ⟨hending, hback⟩ := Piece.ending_of_lineEnd hpiece
    refine hlines.position_next (mem_lineStarts_ofText.2 (.inr ?_)) hlt fun x hx hlow => ?_
    · exact lineStopsAt_iff.2 ⟨_, _, hsplit, breaksLine_of_mem_lineEnds hending hback, hstop⟩
    · rw [hstop]
      exact le_of_lineStopsAt hending (hstops x hx hlow) (hstart ▸ hlow)

/-- The line feed of a carriage return and a line feed, of which a raw string takes the first: the
line stops behind it. -/
theorem ofText_onLines_parted :
    (⟨⟨4, 1⟩, .newLine .lineFeed⟩ : Token) ∈ ofText ['r', '\'', '\\', '\r', '\n', 'x'] ∧
      (LineMap.ofText ['r', '\'', '\\', '\r', '\n', 'x']).position 5 =
        ⟨((LineMap.ofText ['r', '\'', '\\', '\r', '\n', 'x']).position 4).line + 1, 0⟩ := by
  have hmem : (⟨⟨4, 1⟩, .newLine .lineFeed⟩ : Token) ∈
      ofText ['r', '\'', '\\', '\r', '\n', 'x'] := by decide +kernel
  exact ⟨hmem, (ofText_onLines hmem).2 rfl (by decide)⟩

end Tokens

end TypeProbe
