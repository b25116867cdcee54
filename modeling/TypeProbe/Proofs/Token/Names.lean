import TypeProbe.Proofs.Token.Readings

/-!
# Names have text

A name is a word of the text: it starts with a letter or an underscore and goes on as far as there
are letters, digits and underscores. So no token of a text is a name without text, every token that
is a name takes room in it, and no name holds the end of a line or a blank.
-/

namespace TypeProbe

namespace Piece

variable {c : Char} {rest : List Char}

/-- If a piece is a name, it is the word at the front of the text: it starts where a word does and
is taken as far as it goes on. -/
def NamesWord (c : Char) (rest : List Char) (s : SizedPiece) : Prop :=
  ∀ name, s.piece = .lexeme (.identifier name) → Letter.startsWord c = true ∧
    name = String.ofList ((c :: rest).takeWhile Letter.continuesWord)

/-- A word that is read as a name is taken as far as it goes on. -/
theorem namesWord_wordOrString (h : Letter.startsWord c = true) :
    NamesWord c rest (wordOrString (c :: rest)) := by
  simp only [wordOrString]
  split
  · exact fun name hname => by cases hname
  · split
    · exact fun name hname => by cases hname
    · exact fun name hname => ⟨h, by cases hname; rfl⟩

/-- A piece that is a name is the word at the front of the text. -/
theorem namesWord_at (c : Char) (rest : List Char) : NamesWord c rest (Piece.at c rest) := by
  refine at_induction c rest (fun piece more hpiece _ name hname => ?_)
    (fun x more hmark name hname => ?_) (fun _ _ name hname => ?_) (fun _ name hname => ?_)
    namesWord_wordOrString
  · exact absurd hname (hpiece _)
  · obtain rfl := Piece.lexeme.inj hname
    cases hmark
  · cases hname
  · cases hname

end Piece

/-- If a token is a name it has text and takes room. -/
def Token.IsSpelled (t : Token) : Prop :=
  ∀ name, t.lexeme = .identifier name → name ≠ "" ∧ t.start < t.stop

namespace Tokens

variable {text : List Char} {t : Token} {name : String}

/-- A token that is a name stands where a word does and is this word. -/
theorem word_of_identifier (ht : t ∈ ofText text) (hname : t.lexeme = .identifier name) :
    ∃ before c rest more, t.range = ⟨byteLength before, byteLength (c :: rest.take more)⟩ ∧
      Letter.startsWord c = true ∧
      name = String.ofList ((c :: rest).takeWhile Letter.continuesWord) := by
  have hwritten : t.lexeme.IsWritten := by
    rw [hname]
    trivial
  obtain ⟨before, c, rest, more, -, hpiece, hrange⟩ := standsIn_of_mem ht hwritten
  exact ⟨before, c, rest, more, hrange,
    Piece.namesWord_at c rest name (by rw [hpiece, hname])⟩

/-- All characters of a name are such that a word goes on with them. -/
theorem continuesWord_of_identifier (ht : t ∈ ofText text) (hname : t.lexeme = .identifier name) :
    ∀ c ∈ name.toList, Letter.continuesWord c = true := by
  obtain ⟨_, _, _, _, -, -, rfl⟩ := word_of_identifier ht hname
  intro c hc
  rw [String.toList_ofList] at hc
  exact List.mem_takeWhile_imp hc

/-- Every token of a text that is a name has text and takes room. -/
theorem ofText_isSpelled (text : List Char) : ∀ t ∈ ofText text, t.IsSpelled := by
  intro t ht name hname
  obtain ⟨before, c, rest, more, hrange, hstarts, rfl⟩ := word_of_identifier ht hname
  constructor
  · have hgoes : Letter.continuesWord c = true := by
      rw [Letter.continuesWord, ← Letter.startsWord, hstarts, Bool.true_or]
    intro hempty
    have hnil := congrArg String.toList hempty
    rw [String.toList_ofList, List.takeWhile_cons_of_pos hgoes] at hnil
    cases hnil
  · rw [Token.start, Token.stop, TextRange.stop, hrange, byteLength_cons]
    exact Nat.lt_add_of_pos_right (Nat.add_pos_left c.utf8Size_pos _)

/-- No token of a text is a name without text. -/
theorem ofText_hasTexts (text : List Char) : ∀ t ∈ ofText text, t.lexeme ≠ .identifier "" :=
  fun t ht hname => (ofText_isSpelled text t ht "" hname).1 rfl

end Tokens

end TypeProbe
