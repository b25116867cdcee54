import Mathlib.Data.List.Forall2
import TypeProbe.Proofs.Token.Coverage

/-!
# Two readings side by side

Two texts may be read to tokens that correspond to each other one by one. `Layout.Beside` compares
two states of the lexer: they have the same brackets, blocks and blanks, and the tokens of the
second are those of its start (`base`) and then tokens that correspond to the tokens of the first.
What corresponds to what is a parameter, of which the layout asks no more than that its own tokens
correspond to each other (`Implied`). Pieces that correspond lead to states that do
(`Beside.absorb`), and so does the end of the text (`Beside.finish`).
-/

namespace TypeProbe

/-- A lexeme that no characters are written for. -/
def Lexeme.IsImplied : Lexeme → Prop
  | .newLine .implied | .indent _ | .dedent _ _ | .endOfStream => True
  | _ => False

/-- Two pieces that stand beside each other: both are passed over, or they are tokens that
correspond and open and close the same brackets. -/
inductive Piece.Beside (R : Lexeme → Lexeme → Prop) : Piece → Piece → Prop where
  | skipped {p : Piece} (h : p = .blank ∨ p = .comment ∨ p = .lineJoin) : Beside R p p
  | lineEnd {kind kind' : NewLineKind} (h : R (.newLine kind) (.newLine kind')) :
    Beside R (.lineEnd kind) (.lineEnd kind')
  | lexeme {x x' : Lexeme} (h : R x x')
    (brackets : ∀ n, Layout.bracketsAfter n x = Layout.bracketsAfter n x') :
    Beside R (.lexeme x) (.lexeme x')

namespace Layout

variable {R : Token → Token → Prop} {base : List Token} {l l' : Layout} {start start' : Nat}

/-- Tokens of the layout at the two offsets correspond. -/
def Implied (R : Token → Token → Prop) (start start' : Nat) : Prop :=
  ∀ x : Lexeme, x.IsImplied → R ⟨⟨start, 0⟩, x⟩ ⟨⟨start', 0⟩, x⟩

/-- Two states of the lexer that differ in their tokens only, which correspond but for those that
the second one started with. -/
structure Beside (R : Token → Token → Prop) (base : List Token) (l l' : Layout) : Prop where
  /-- The tokens correspond. -/
  tokens : ∃ tokens', List.Forall₂ R l.tokens tokens' ∧ l'.tokens = tokens' ++ base
  /-- The same brackets are open. -/
  brackets : l'.brackets = l.brackets
  /-- The same blocks are open. -/
  indents : l'.indents = l.indents
  /-- The same blanks are measured. -/
  leading : l'.leading = l.leading
  /-- The lines have tokens or not. -/
  lineHasTokens : l'.lineHasTokens = l.lineHasTokens

namespace Beside

/-- Tokens that correspond may be added. -/
theorem push (h : Beside R base l l') {length length' : Nat} {x x' : Lexeme}
    (hx : R ⟨⟨start, length⟩, x⟩ ⟨⟨start', length'⟩, x'⟩) :
    Beside R base (l.push start length x) (l'.push start' length' x') := by
  obtain ⟨tokens', hR, heq⟩ := h.tokens
  refine ⟨⟨_, .cons hx hR, ?_⟩, h.brackets, h.indents, h.leading, h.lineHasTokens⟩
  simp only [Layout.push, heq, List.cons_append]

/-- Layout tokens may be added one by one. -/
theorem foldl_push (h : Beside R base l l') (himplied : Implied R start start')
    {lexemes : List Lexeme} (hlexemes : ∀ x ∈ lexemes, x.IsImplied) :
    Beside R base (lexemes.foldl (fun l d => l.push start 0 d) l)
      (lexemes.foldl (fun l d => l.push start' 0 d) l') := by
  induction lexemes generalizing l l' with
  | nil => exact h
  | cons x lexemes ih =>
    exact ih (h.push (himplied x (hlexemes x List.mem_cons_self)))
      fun y hy => hlexemes y (List.mem_cons_of_mem x hy)

/-- Tokens that close blocks are of the layout. -/
theorem isImplied_of_mem_closeBlocks {width : Nat} {stack : List Nat} {x : Lexeme}
    (h : x ∈ (closeBlocks width stack).1) : x.IsImplied := by
  have hkind := kind_of_mem_closeBlocks h
  cases x <;> trivial

/-- Blanks of the same width open and close the same blocks. -/
theorem indentTo (h : Beside R base l l') (himplied : Implied R start start') (width : Nat) :
    Beside R base (l.indentTo start width) (l'.indentTo start' width) := by
  have hwidth : l'.width = l.width := congrArg (List.headD · 0) h.indents
  unfold Layout.indentTo
  rw [hwidth, h.indents]
  split
  · obtain ⟨htokens, hbrackets, -, hleading, hline⟩ := h.push (himplied (.indent width) trivial)
    exact ⟨htokens, hbrackets, rfl, hleading, hline⟩
  · obtain ⟨htokens, hbrackets, -, hleading, hline⟩ :=
      h.foldl_push himplied fun x hx => isImplied_of_mem_closeBlocks hx
    exact ⟨htokens, hbrackets, rfl, hleading, hline⟩

/-- The blanks at the start of a line are left in the same way. -/
theorem leaveBlanks (h : Beside R base l l') (himplied : Implied R start start') (counts : Bool) :
    Beside R base (l.leaveBlanks start counts) (l'.leaveBlanks start' counts) := by
  unfold Layout.leaveBlanks
  rw [h.leading]
  cases l.leading with
  | none => exact h
  | some width =>
    have hindent : Beside R base (if counts then l.indentTo start width else l)
        (if counts then l'.indentTo start' width else l') := by
      cases counts with
      | true => exact h.indentTo himplied width
      | false => exact h
    exact ⟨hindent.tokens, hindent.brackets, hindent.indents, rfl, hindent.lineHasTokens⟩

/-- Pieces that correspond keep the states beside each other. -/
theorem absorb (h : Beside R base l l') (himplied : Implied R start start') (c : Char)
    {length length' : Nat} {piece piece' : Piece}
    (hpiece : Piece.Beside (fun x x' => R ⟨⟨start, length⟩, x⟩ ⟨⟨start', length'⟩, x'⟩) piece
      piece') :
    Beside R base (l.absorb c start length piece) (l'.absorb c start' length' piece') := by
  cases hpiece with
  | skipped hskipped =>
    rcases hskipped with rfl | rfl | rfl
    · exact ⟨h.tokens, h.brackets, h.indents, congrArg (Option.map (widthAfter · c)) h.leading,
        h.lineHasTokens⟩
    · exact h.leaveBlanks himplied false
    · exact h.leaveBlanks himplied true
  | lexeme hx hbrackets =>
    have hleave := h.leaveBlanks himplied true
    have hpush := hleave.push hx
    refine ⟨hpush.tokens, ?_, hpush.indents, hpush.leading, rfl⟩
    exact (hbrackets _).symm.trans (congrArg (bracketsAfter · _) hleave.brackets)
  | @lineEnd kind kind' hend =>
    have hleave := h.leaveBlanks himplied false
    simp only [Layout.absorb, hleave.brackets, hleave.lineHasTokens]
    split
    · exact hleave
    · have hline : Beside R base
          (if (l.leaveBlanks start false).lineHasTokens then
            (l.leaveBlanks start false).push start length (.newLine kind) else
            l.leaveBlanks start false)
          (if (l.leaveBlanks start false).lineHasTokens then
            (l'.leaveBlanks start' false).push start' length' (.newLine kind') else
            l'.leaveBlanks start' false) := by
        split
        · exact hleave.push hend
        · exact hleave
      exact ⟨hline.tokens, hline.brackets, hline.indents, rfl, rfl⟩

/-- The ends of both texts bring the same. -/
theorem finish (h : Beside R base l l') (himplied : Implied R start start') :
    Beside R base (l.finish start) (l'.finish start') := by
  have hline : Beside R base
      (if l.lineHasTokens then l.push start 0 (.newLine .implied) else l)
      (if l'.lineHasTokens then l'.push start' 0 (.newLine .implied) else l') := by
    rw [h.lineHasTokens]
    split
    · exact h.push (himplied _ trivial)
    · exact h
  simp only [Layout.finish]
  rw [hline.indents]
  exact (hline.foldl_push himplied fun x hx => isImplied_of_mem_closeBlocks hx).push
    (himplied _ trivial)

end Beside

end Layout

/-! ## Where tokens stand -/

/-- No characters are written for what is implied. -/
theorem Lexeme.IsImplied.not_isWritten {x : Lexeme} (h : x.IsImplied) : ¬ x.IsWritten := by
  cases x <;> first | exact id | exact False.elim h

/-- The lexeme of the token that a piece may become. -/
inductive Piece.Makes : Piece → Lexeme → Prop where
  | lexeme (x : Lexeme) : Makes (.lexeme x) x
  | lineEnd (kind : NewLineKind) : Makes (.lineEnd kind) (.newLine kind)

/-- A token comes from the piece at the front of some rest of a text, and covers the characters that
are taken there. -/
def Token.ComesFrom (text : List Char) (t : Token) : Prop :=
  ∃ before c rest piece more, text = before ++ c :: rest ∧ Piece.at c rest = ⟨piece, more⟩ ∧
    piece.Makes t.lexeme ∧ t.range = ⟨byteLength before, byteLength (c :: rest.take more)⟩

/-- A token takes no room in a text and comes from its layout, or it comes from a piece of it. -/
def Token.HasSource (text : List Char) (t : Token) : Prop :=
  t.lexeme.IsImplied ∧ t.range.length = 0 ∨ t.ComesFrom text

/-- Reading on adds tokens that have a source in the text. A reading beside itself says this of each
token. -/
theorem Layout.readFrom_hasSource {whole : List Char} (l : Layout) (start : Nat)
    (text : List Char) : ∀ before, whole = before ++ text → start = byteLength before →
      Beside (fun t _ => t.HasSource whole) [] l l →
      Beside (fun t _ => t.HasSource whole) [] (l.readFrom start text) (l.readFrom start text) := by
  have himplied : ∀ start, Implied (fun t _ => t.HasSource whole) start start :=
    fun start x hx => .inl ⟨hx, rfl⟩
  fun_induction l.readFrom start text with
  | case1 l start =>
    intro before hwhole hstart h
    exact h.finish (himplied start)
  | case2 l start c rest sized length ih =>
    intro before hwhole hstart h
    have hmakes : ∀ x, sized.piece.Makes x → (⟨⟨start, length⟩, x⟩ : Token).HasSource whole :=
      fun x hx => .inr ⟨before, c, rest, sized.piece, sized.more, hwhole, rfl, hx,
        by rw [hstart]; rfl⟩
    have hpiece : Piece.Beside (fun x _ => (⟨⟨start, length⟩, x⟩ : Token).HasSource whole)
        sized.piece sized.piece := by
      cases hsized : sized.piece with
      | blank => exact .skipped (.inl rfl)
      | comment => exact .skipped (.inr (.inl rfl))
      | lineJoin => exact .skipped (.inr (.inr rfl))
      | lineEnd kind => exact .lineEnd (hmakes _ (hsized ▸ .lineEnd kind))
      | lexeme x => exact .lexeme (hmakes x (hsized ▸ .lexeme x)) fun _ => rfl
    refine ih (before ++ c :: rest.take sized.more) ?_ ?_ (h.absorb (himplied start) c hpiece)
    · rw [List.append_assoc, List.cons_append, List.take_append_drop, hwhole]
    · rw [byteLength_append, hstart]
      rfl

/-- Every token of a text has a source in it. -/
theorem Tokens.hasSource_of_mem {text : List Char} {t : Token} (ht : t ∈ ofText text) :
    t.HasSource text := by
  have hinitial : Layout.Beside (fun t _ => t.HasSource text) [] Layout.initial Layout.initial :=
    ⟨⟨[], .nil, rfl⟩, rfl, rfl, rfl, rfl⟩
  obtain ⟨tokens, hall, heq⟩ :=
    (Layout.initial.readFrom_hasSource 0 text [] rfl rfl hinitial).tokens
  rw [List.append_nil] at heq
  rw [← heq] at hall
  exact List.forall₂_same.1 hall t (List.mem_reverse.1 ht)

/-- A token is what stands at the front of some rest of a text, and covers the characters that are
taken there. -/
def Token.StandsIn (text : List Char) (t : Token) : Prop :=
  ∃ before c rest more, text = before ++ c :: rest ∧ Piece.at c rest = ⟨.lexeme t.lexeme, more⟩ ∧
    t.range = ⟨byteLength before, byteLength (c :: rest.take more)⟩

/-- A token that is written in a text stands in it. -/
theorem Tokens.standsIn_of_mem {text : List Char} {t : Token} (ht : t ∈ ofText text)
    (hwritten : t.lexeme.IsWritten) : t.StandsIn text := by
  rcases hasSource_of_mem ht with
    ⟨himplied, -⟩ | ⟨before, c, rest, piece, more, htext, hpiece, hmakes, hrange⟩
  · exact absurd hwritten himplied.not_isWritten
  obtain ⟨range, lexeme⟩ := t
  cases hmakes with
  | lexeme => exact ⟨before, c, rest, more, htext, hpiece, hrange⟩
  | lineEnd kind => exact hwritten.elim

end TypeProbe
