import TypeProbe.Proofs.Token.Coverage

/-!
# Layout tokens are balanced

Tokens for indentation open and close blocks. `openWidths` replays them: `indent` puts the width of
a block on a stack and `dedent` takes the last one off. `openBrackets` counts the brackets that are
open. `ofText_balanced` says of the tokens of every text that the stack grows and shrinks as the
tokens say, and is empty at the end; that a line end comes only after a token of its line; and that
no layout token stands between brackets, but for those that the end of the text brings.

`Layout.Balanced` ties the four fields of the lexer's state to the tokens so far: the stack and the
count are those of the replay, the last token of a line that has tokens is no layout token, and
blanks are measured only on lines without tokens and outside of brackets. Every piece of the text
keeps it (`Balanced.absorb`), and the end of the text adds a flush (`Balanced.finish`).
-/

namespace TypeProbe

/-- A token that is there for the layout of the text. -/
def Token.IsLayout (t : Token) : Prop := t.kind = .newLine ∨ t.kind = .indent ∨ t.kind = .dedent

/-- What is written in the text is not there for its layout. -/
theorem Token.not_isLayout {t : Token} (h : t.lexeme.IsWritten) : ¬ t.IsLayout := by
  obtain ⟨range, x⟩ := t
  intro hlayout
  cases x with
  | newLine kind => exact h
  | indent amount => exact h
  | dedent amount matchesIndent => exact h
  | _ => rcases hlayout with hkind | hkind | hkind <;> cases hkind

/-- A token that the end of the text brings, at the given offset. -/
def Token.EndsText (stop : Nat) (t : Token) : Prop :=
  t.range = ⟨stop, 0⟩ ∧
    (t.lexeme = .newLine .implied ∨ t.kind = .dedent ∨ t.lexeme = .endOfStream)

/-- The widths of the open blocks after one more token, the innermost first. -/
def widthsAfter (widths : List Nat) (t : Token) : List Nat :=
  match t.lexeme with
  | .indent amount => amount :: widths
  | .dedent _ _ => widths.tail
  | _ => widths

/-- A token that is no layout token leaves the open blocks. -/
theorem widthsAfter_of_not_isLayout {t : Token} (h : ¬ t.IsLayout) (widths : List Nat) :
    widthsAfter widths t = widths := by
  obtain ⟨range, x⟩ := t
  cases x with
  | indent amount => exact absurd (.inr (.inl rfl)) h
  | dedent amount matchesIndent => exact absurd (.inr (.inr rfl)) h
  | _ => rfl

/-- The widths of the blocks that are open after some tokens, the innermost first. -/
def openWidths (tokens : List Token) : List Nat := tokens.foldl widthsAfter []

/-- The number of brackets that are open after some tokens; closing brackets never make it
negative. -/
def openBrackets (tokens : List Token) : Nat :=
  tokens.foldl (fun n t => Layout.bracketsAfter n t.lexeme) 0

@[simp] theorem openWidths_nil : openWidths [] = [] := rfl

@[simp] theorem openWidths_append_singleton (tokens : List Token) (t : Token) :
    openWidths (tokens ++ [t]) = widthsAfter (openWidths tokens) t := by
  rw [openWidths, List.foldl_append]
  rfl

@[simp] theorem openBrackets_nil : openBrackets [] = 0 := rfl

@[simp] theorem openBrackets_append_singleton (tokens : List Token) (t : Token) :
    openBrackets (tokens ++ [t]) = Layout.bracketsAfter (openBrackets tokens) t.lexeme := by
  rw [openBrackets, List.foldl_append]
  rfl

/-- What a layout token says fits the tokens before it: a block is wider than the one around it, a
closed block was open and leaves the width that is said, and a line that ends has a token. -/
structure Token.Follows (before : List Token) (t : Token) : Prop where
  /-- A new block is wider than the innermost open one. -/
  indent : ∀ amount, t.lexeme = .indent amount → (openWidths before).headD 0 < amount
  /-- A closed block was open, and the block that goes on has the width that is said. -/
  dedent : ∀ amount matchesIndent, t.lexeme = .dedent amount matchesIndent →
    openWidths before ≠ [] ∧ amount = (openWidths (before ++ [t])).headD 0
  /-- The end of a line comes after a token of the line. -/
  newLine : t.kind = .newLine → ∃ u, before.getLast? = some u ∧ ¬ u.IsLayout

/-- The end of a line follows a token of the line. -/
theorem Token.follows_newLine {before : List Token} {range : TextRange} {kind : NewLineKind}
    (h : ∃ u, before.getLast? = some u ∧ ¬ u.IsLayout) :
    (Token.mk range (.newLine kind)).Follows before := ⟨nofun, nofun, fun _ => h⟩

/-- A block that is opened follows tokens whose innermost open block is narrower. -/
theorem Token.follows_indent {before : List Token} {range : TextRange} {amount : Nat}
    (h : (openWidths before).headD 0 < amount) :
    (Token.mk range (.indent amount)).Follows before :=
  ⟨fun _ heq => Lexeme.indent.inj heq ▸ h, nofun, nofun⟩

/-- The end of the stream follows all tokens. -/
theorem Token.follows_endOfStream {before : List Token} (range : TextRange) :
    (Token.mk range .endOfStream).Follows before := ⟨nofun, nofun, nofun⟩

/-- A token fits the tokens before it, and no layout token stands between brackets. -/
def Token.Fits (before : List Token) (t : Token) : Prop :=
  t.Follows before ∧ (t.IsLayout → openBrackets before = 0)

/-- A token that is no layout token fits behind all tokens. -/
theorem Token.fits_of_not_isLayout {t : Token} (h : ¬ t.IsLayout) (before : List Token) :
    t.Fits before := by
  have hkind : ∀ kind, kind = .newLine ∨ kind = .indent ∨ kind = .dedent → t.kind ≠ kind := by
    rintro kind hkind rfl
    exact h hkind
  refine ⟨⟨fun amount ht => ?_, fun amount matchesIndent ht => ?_, fun ht => ?_⟩, fun ht => ?_⟩
  · exact absurd (congrArg Lexeme.kind ht) (hkind .indent (by simp))
  · exact absurd (congrArg Lexeme.kind ht) (hkind .dedent (by simp))
  · exact absurd ht (hkind .newLine (by simp))
  · exact absurd ht h

/-- Every token of a list stands in a relation to the tokens before it. -/
def EachAfter (P : List Token → Token → Prop) (tokens : List Token) : Prop :=
  ∀ before t after, tokens = before ++ t :: after → P before t

/-- A token may be put behind others if it stands in the relation to them. -/
theorem EachAfter.concat {P : List Token → Token → Prop} {tokens : List Token} {t : Token}
    (htokens : EachAfter P tokens) (ht : P tokens t) : EachAfter P (tokens ++ [t]) := by
  intro before u after heq
  rcases List.eq_nil_or_concat after with rfl | ⟨after, last, rfl⟩
  · obtain ⟨rfl, hu⟩ := List.append_inj' heq rfl
    obtain rfl := List.singleton_inj.1 hu
    exact ht
  · have hsplit : tokens ++ [t] = (before ++ u :: after) ++ [last] := by
      rw [heq]
      simp
    exact htokens before u after (List.append_inj' hsplit rfl).1

namespace Layout

variable {l : Layout} {start : Nat}

/-! ## Blocks that are closed -/

/-- The tokens that close blocks are dedentations which take the closed widths off the stack, and
each of them fits the tokens before it. -/
theorem closeBlocks_follow (width start : Nat) {stack : List Nat} {tokens : List Token}
    (hwidths : openWidths tokens = stack) {P : List Token → Token → Prop}
    (heach : EachAfter P tokens)
    (hP : ∀ before t, t.Follows before → openBrackets before = openBrackets tokens →
      t.kind = .dedent → P before t) :
    let dedents := (closeBlocks width stack).1.map (Token.mk ⟨start, 0⟩)
    openWidths (tokens ++ dedents) = (closeBlocks width stack).2 ∧
      openBrackets (tokens ++ dedents) = openBrackets tokens ∧ EachAfter P (tokens ++ dedents) := by
  induction stack generalizing tokens with
  | nil => simpa [closeBlocks] using ⟨hwidths, heach⟩
  | cons top below ih =>
    by_cases hwider : width < top
    · -- The innermost block is closed, and the others are looked at from behind its token.
      generalize ht : Token.mk ⟨start, 0⟩ (.dedent (below.headD 0) (width ≤ below.headD 0)) = t
      have hlexeme : t.lexeme = .dedent (below.headD 0) (width ≤ below.headD 0) := by rw [← ht]
      have hclosed : openWidths (tokens ++ [t]) = below := by
        rw [openWidths_append_singleton, widthsAfter, hlexeme, hwidths]
        rfl
      have hbrackets : openBrackets (tokens ++ [t]) = openBrackets tokens := by
        rw [openBrackets_append_singleton, hlexeme]
        rfl
      have hfollows : t.Follows tokens := by
        refine ⟨fun amount h => ?_, fun amount matchesIndent h => ⟨?_, ?_⟩, fun h => ?_⟩
        · rw [hlexeme] at h
          cases h
        · rw [hwidths]
          exact List.cons_ne_nil top below
        · rw [hlexeme] at h
          rw [hclosed]
          exact (Lexeme.dedent.inj h).1.symm
        · rw [Token.kind, hlexeme] at h
          cases h
      have hnext := heach.concat (hP tokens t hfollows rfl (by rw [Token.kind, hlexeme]; rfl))
      have hrest := ih hclosed hnext fun before u hu hopen => hP before u hu (hopen.trans hbrackets)
      have hdedents : (closeBlocks width (top :: below)).1.map (Token.mk ⟨start, 0⟩) =
          t :: (closeBlocks width below).1.map (Token.mk ⟨start, 0⟩) := by
        simp [closeBlocks, hwider, ← ht]
      have hkept : (closeBlocks width (top :: below)).2 = (closeBlocks width below).2 := by
        simp [closeBlocks, hwider]
      rw [hdedents, hkept]
      simpa [hbrackets] using hrest
    · simpa [closeBlocks, hwider] using ⟨hwidths, heach⟩

/-- Blocks that are kept were open. -/
theorem closeBlocks_subset (width : Nat) (stack : List Nat) :
    (closeBlocks width stack).2 ⊆ stack := by
  induction stack with
  | nil => exact List.Subset.refl _
  | cons top below ih =>
    by_cases hwider : width < top
    · simp only [closeBlocks, hwider, if_true]
      exact List.subset_cons_of_subset top ih
    · simp [closeBlocks, hwider]

/-- Blocks that are indented are all closed at no width. -/
theorem closeBlocks_zero {stack : List Nat} (h : ∀ w ∈ stack, 0 < w) :
    (closeBlocks 0 stack).2 = [] := by
  induction stack with
  | nil => rfl
  | cons top below ih =>
    have htop : 0 < top := h top List.mem_cons_self
    simpa [closeBlocks, htop] using ih fun w hw => h w (List.mem_cons_of_mem _ hw)

/-! ## The invariant of the lexer -/

/-- The state of the lexer and its tokens agree. -/
structure Balanced (l : Layout) : Prop where
  /-- The stack is the one that the tokens say. -/
  widths : openWidths l.tokens.reverse = l.indents
  /-- Every block is indented. -/
  positive : ∀ w ∈ l.indents, 0 < w
  /-- The count is that of the open brackets. -/
  brackets : openBrackets l.tokens.reverse = l.brackets
  /-- The last token of a line that has tokens is no layout token. -/
  last : l.lineHasTokens = true → ∃ u, l.tokens.head? = some u ∧ ¬ u.IsLayout
  /-- Blanks are measured on lines without tokens and outside of brackets. -/
  leading : l.leading ≠ none → l.brackets = 0 ∧ l.lineHasTokens = false
  /-- Every token fits those before it. -/
  fits : EachAfter (fun before t => t.Fits before) l.tokens.reverse

/-- The lexer begins in balance. -/
theorem Balanced.initial : Balanced initial where
  widths := rfl
  positive := nofun
  brackets := rfl
  last := nofun
  leading _ := ⟨rfl, rfl⟩
  fits before t after h := by simp [Layout.initial] at h

namespace Balanced

/-- Taking note of a line's blanks keeps the balance if no line is begun and no bracket open. -/
theorem indentTo (h : l.Balanced) (hleading : l.leading ≠ none) (start width : Nat) :
    ({ l.indentTo start width with leading := none } : Layout).Balanced := by
  obtain ⟨hbrackets, hline⟩ := h.leading hleading
  have hopen : openBrackets l.tokens.reverse = 0 := h.brackets.trans hbrackets
  by_cases hwider : l.width < width
  · -- A new block is opened.
    have hindent : l.indentTo start width =
        { l.push start 0 (.indent width) with indents := width :: l.indents } := if_pos hwider
    rw [hindent]
    refine ⟨?_, ?_, ?_, fun hlast => ?_, fun hnone => absurd rfl hnone, ?_⟩
    · simp [push, widthsAfter, h.widths]
    · intro w hw
      rcases List.mem_cons.1 hw with rfl | hw
      · exact Nat.zero_lt_of_lt hwider
      · exact h.positive w hw
    · simp [push, bracketsAfter, h.brackets]
    · exact absurd (hline.symm.trans hlast) Bool.false_ne_true
    · rw [push, List.reverse_cons]
      refine h.fits.concat ⟨Token.follows_indent ?_, fun _ => hopen⟩
      rw [h.widths]
      exact hwider
  · -- Blocks may be closed.
    have hdedent : l.indentTo start width =
        { l with
          tokens := ((closeBlocks width l.indents).1.map (Token.mk ⟨start, 0⟩)).reverse ++ l.tokens
          indents := (closeBlocks width l.indents).2 } := by
      rw [Layout.indentTo, if_neg hwider]
      simp only [foldl_push]
    obtain ⟨hwidths, hcount, hfits⟩ := closeBlocks_follow width start h.widths h.fits
      fun before t ht hcount _ => ⟨ht, fun _ => hcount.trans hopen⟩
    rw [hdedent]
    refine ⟨?_, ?_, ?_, fun hlast => ?_, fun hnone => absurd rfl hnone, ?_⟩
    · simpa using hwidths
    · exact fun w hw => h.positive w (closeBlocks_subset width l.indents hw)
    · simpa [h.brackets] using hcount
    · exact absurd (hline.symm.trans hlast) Bool.false_ne_true
    · simpa using hfits

/-- Leaving the blanks at the start of a line keeps the balance, and no more blanks are measured. -/
theorem leaveBlanks (h : l.Balanced) (start : Nat) (counts : Bool) :
    (l.leaveBlanks start counts).Balanced ∧ (l.leaveBlanks start counts).leading = none := by
  have hleave : ∀ l : Layout, l.leading = none → l.leaveBlanks start counts = l := by
    intro l hl
    rw [Layout.leaveBlanks, hl]
  cases hwidth : l.leading with
  | none =>
    rw [hleave l hwidth]
    exact ⟨h, hwidth⟩
  | some width =>
    have hsome : l.leading ≠ none := by
      rw [hwidth]
      exact Option.some_ne_none width
    cases counts with
    | true =>
      have htrue : l.leaveBlanks start true =
          { l.indentTo start width with leading := none } := by
        rw [Layout.leaveBlanks, hwidth]
        rfl
      rw [htrue]
      exact ⟨h.indentTo hsome start width, rfl⟩
    | false =>
      have hfalse : l.leaveBlanks start false = { l with leading := none } := by
        rw [Layout.leaveBlanks, hwidth]
        rfl
      rw [hfalse]
      exact ⟨⟨h.widths, h.positive, h.brackets, h.last, fun hnone => absurd rfl hnone, h.fits⟩, rfl⟩

/-- A token that is no layout token keeps the balance. -/
theorem pushLexeme (h : l.Balanced) (hleading : l.leading = none) (start length : Nat)
    {x : Lexeme} (hx : ¬ (Token.mk ⟨start, length⟩ x).IsLayout) :
    ({ l.push start length x with
        lineHasTokens := true
        brackets := bracketsAfter l.brackets x } : Layout).Balanced where
  widths := by simp [push, h.widths, widthsAfter_of_not_isLayout hx]
  positive := h.positive
  brackets := by simp [push, h.brackets]
  last _ := ⟨_, rfl, hx⟩
  leading hnone := absurd hleading hnone
  fits := by
    rw [push, List.reverse_cons]
    exact h.fits.concat (Token.fits_of_not_isLayout hx _)

/-- The end of a line keeps the balance. -/
theorem pushNewLine (h : l.Balanced) (hbrackets : l.brackets = 0) (hline : l.lineHasTokens = true)
    (start length : Nat) (kind : NewLineKind) :
    ({ l.push start length (.newLine kind) with
        lineHasTokens := false
        leading := some 0 } : Layout).Balanced where
  widths := by simp [push, widthsAfter, h.widths]
  positive := h.positive
  brackets := by simp [push, bracketsAfter, h.brackets]
  last := nofun
  leading _ := ⟨hbrackets, rfl⟩
  fits := by
    rw [push, List.reverse_cons]
    refine h.fits.concat ⟨Token.follows_newLine ?_, fun _ => h.brackets.trans hbrackets⟩
    rw [List.getLast?_reverse]
    exact h.last hline

/-- Going past a piece keeps the balance. -/
theorem absorb (h : l.Balanced) (c : Char) (start length : Nat) {piece : Piece}
    (hpiece : ∀ x, piece = .lexeme x → x.IsWritten) :
    (l.absorb c start length piece).Balanced := by
  cases piece with
  | blank =>
    refine ⟨h.widths, h.positive, h.brackets, h.last, fun hmore => ?_, h.fits⟩
    refine h.leading fun hnone => hmore ?_
    simp [Layout.absorb, hnone]
  | comment => exact (h.leaveBlanks start false).1
  | lineJoin => exact (h.leaveBlanks start true).1
  | lexeme x =>
    obtain ⟨hleave, hleading⟩ := h.leaveBlanks start true
    exact hleave.pushLexeme hleading start length (Token.not_isLayout (hpiece x rfl))
  | lineEnd kind =>
    obtain ⟨hleave, hleading⟩ := h.leaveBlanks start false
    simp only [Layout.absorb]
    generalize l.leaveBlanks start false = l' at hleave hleading ⊢
    -- Line ends count outside of brackets only, and are tokens on lines that have some.
    by_cases hopen : l'.brackets ≠ 0
    · rw [if_pos hopen]
      exact hleave
    · have hclosed : l'.brackets = 0 := not_not.1 hopen
      rw [if_neg hopen]
      by_cases hline : l'.lineHasTokens = true
      · rw [if_pos hline]
        exact hleave.pushNewLine hclosed hline start length kind
      · rw [if_neg hline]
        exact ⟨hleave.widths, hleave.positive, hleave.brackets,
          fun hlast => absurd hlast Bool.false_ne_true, fun _ => ⟨hclosed, rfl⟩, hleave.fits⟩

/-- What the end of the text brings are the end of a line, closed blocks and the end of the stream;
each of them fits the tokens before it, and no block is left open. -/
theorem finish (h : l.Balanced) (stop : Nat) :
    ∃ flush : List Token, (l.finish stop).tokens.reverse = l.tokens.reverse ++ flush ∧
      (∀ t ∈ flush, t.EndsText stop) ∧
      openWidths (l.tokens.reverse ++ flush) = [] ∧
      EachAfter (fun before t => t.Follows before) (l.tokens.reverse ++ flush) := by
  -- The end of the last line comes first.
  have hline : ∃ flush : List Token,
      (if l.lineHasTokens then l.push stop 0 (.newLine .implied) else l) =
        { l with tokens := flush.reverse ++ l.tokens } ∧ (∀ t ∈ flush, t.EndsText stop) ∧
      openWidths (l.tokens.reverse ++ flush) = l.indents ∧
      EachAfter (fun before t => t.Follows before) (l.tokens.reverse ++ flush) := by
    have hfollow : EachAfter (fun before t => t.Follows before) l.tokens.reverse :=
      fun before t after heq => (h.fits before t after heq).1
    by_cases hline : l.lineHasTokens = true
    · refine ⟨[⟨⟨stop, 0⟩, .newLine .implied⟩], by rw [if_pos hline]; rfl, ?_, ?_, ?_⟩
      · intro t ht
        obtain rfl := List.mem_singleton.1 ht
        exact ⟨rfl, .inl rfl⟩
      · simp [widthsAfter, h.widths]
      · refine hfollow.concat (Token.follows_newLine ?_)
        rw [List.getLast?_reverse]
        exact h.last hline
    · refine ⟨[], by rw [if_neg hline]; rfl, ?_, by simpa using h.widths, by simpa using hfollow⟩
      intro t ht
      exact absurd ht List.not_mem_nil
  obtain ⟨flush, hflush, hends, hwidths, hfollow⟩ := hline
  -- Then all blocks are closed, and the stream ends.
  obtain ⟨hclosed, -, hdedents⟩ :=
    closeBlocks_follow 0 stop hwidths hfollow fun before t ht _ _ => ht
  rw [closeBlocks_zero h.positive] at hclosed
  refine ⟨flush ++ (closeBlocks 0 l.indents).1.map (Token.mk ⟨stop, 0⟩) ++
    [⟨⟨stop, 0⟩, .endOfStream⟩], ?_, ?_, ?_, ?_⟩
  · simp only [Layout.finish, hflush, foldl_push]
    simp [push]
  · intro t ht
    rcases List.mem_append.1 ht with ht | ht
    · rcases List.mem_append.1 ht with ht | ht
      · exact hends t ht
      · obtain ⟨x, hx, rfl⟩ := List.mem_map.1 ht
        exact ⟨rfl, .inr (.inl (kind_of_mem_closeBlocks hx))⟩
    · obtain rfl := List.mem_singleton.1 ht
      exact ⟨rfl, .inr (.inr rfl)⟩
  · rw [← List.append_assoc, ← List.append_assoc, openWidths_append_singleton, hclosed]
    rfl
  · rw [← List.append_assoc, ← List.append_assoc]
    exact hdedents.concat (Token.follows_endOfStream ⟨stop, 0⟩)

/-- Reading a text from a balanced state puts tokens that fit behind those so far, and then what the
end of the text brings. -/
theorem readFrom (h : l.Balanced) (start : Nat) (text : List Char) :
    ∃ body flush : List Token, (l.readFrom start text).tokens.reverse = body ++ flush ∧
      EachAfter (fun before t => t.Fits before) body ∧
      (∀ t ∈ flush, t.EndsText (start + byteLength text)) ∧ openWidths (body ++ flush) = [] ∧
      EachAfter (fun before t => t.Follows before) (body ++ flush) := by
  fun_induction l.readFrom start text with
  | case1 l start =>
    obtain ⟨flush, htokens, hflush⟩ := h.finish start
    exact ⟨l.tokens.reverse, flush, htokens, h.fits, hflush⟩
  | case2 l start c rest sized length ih =>
    have hpiece : ∀ x, sized.piece = .lexeme x → x.IsWritten := by
      intro x hx
      rcases Piece.accounted_at c rest with ⟨y, hy, hwritten⟩ | ⟨hskipped, -⟩
      · obtain rfl := Piece.lexeme.inj (hy.symm.trans hx)
        exact hwritten
      · exact absurd hx (hskipped x)
    have hstop : start + length + byteLength (rest.drop sized.more) =
        start + byteLength (c :: rest) := by
      have hsplit := byteLength_append (rest.take sized.more) (rest.drop sized.more)
      rw [List.take_append_drop] at hsplit
      simp only [byteLength_cons, length]
      omega
    rw [hstop] at ih
    exact ih (h.absorb c start length hpiece)

end Balanced

end Layout

/-- Layout tokens are balanced: the end of the stream is the last token and no other; blocks are
opened with greater widths and closed in turn with the width that goes on, and none is left open;
the end of a line comes directly after a token of it; and no layout token stands between brackets,
unless it is one of those that the end of the text brings. -/
theorem Tokens.ofText_balanced (text : List Char) :
    (∃ front, (∀ t ∈ front, t.lexeme ≠ .endOfStream) ∧
        ofText text = front ++ [⟨⟨byteLength text, 0⟩, .endOfStream⟩]) ∧
      openWidths (ofText text) = [] ∧
      ∀ before t after, ofText text = before ++ t :: after →
        (∀ amount, t.lexeme = .indent amount → (openWidths before).headD 0 < amount) ∧
        (∀ amount matchesIndent, t.lexeme = .dedent amount matchesIndent →
          openWidths before ≠ [] ∧ amount = (openWidths (before ++ [t])).headD 0) ∧
        (t.kind = .newLine → ∃ u, before.getLast? = some u ∧ ¬ u.IsLayout) ∧
        (t.IsLayout → openBrackets before ≠ 0 →
          ∀ u ∈ t :: after, u.EndsText (byteLength text)) := by
  obtain ⟨-, front, hfront, hends⟩ := tiles_ofText text
  obtain ⟨body, flush, htokens, hbody, hflush, hwidths, hfollow⟩ :=
    Layout.Balanced.initial.readFrom 0 text
  rw [Nat.zero_add] at hflush
  change ofText text = body ++ flush at htokens
  rw [htokens]
  refine ⟨⟨front, hfront, htokens ▸ hends⟩, hwidths, fun before t after heq => ?_⟩
  obtain ⟨hindent, hdedent, hnewLine⟩ := hfollow before t after heq
  refine ⟨hindent, hdedent, hnewLine, fun hlayout hopen u hu => ?_⟩
  -- A layout token between brackets is not in the body, and no more are those after it.
  rcases List.append_eq_append_iff.1 heq with ⟨middle, hbefore, hrest⟩ | ⟨middle, hsplit, hrest⟩
  · exact hflush u (hrest ▸ List.mem_append_right middle hu)
  · cases middle with
    | nil => exact hflush u (by rw [List.nil_append] at hrest; exact hrest ▸ hu)
    | cons first middle =>
      obtain ⟨rfl, -⟩ := List.cons.inj (hrest.trans rfl)
      exact absurd ((hbody before t middle hsplit).2 hlayout) hopen

end TypeProbe
