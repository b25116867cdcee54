import Mathlib.Data.List.TakeWhile
import TypeProbe.Token.Lexer

/-!
# The tokens of a text cover it

What the lexer passes over is of four kinds (`Skipped`): blanks, line ends, comments and joined
lines. `Tiles` says that a text is laid out as tokens and such stretches, one after the other
without a gap. `tiles_ofText` shows it of the tokens of every text, and `ofText_covers` draws the
conclusions: the tokens are in order and apart from each other, start and stop between characters,
and leave out nothing but skipped stretches.

The proof follows the reading. `Piece.at` takes a piece off the front of the text
(`Piece.accounted_at`), `Layout.absorb` adds tokens that stand before the piece or on it
(`absorb_tokens`), and the induction of `Layout.readFrom` puts the pieces together.
-/

namespace TypeProbe

/-- The ways in which a line ends. -/
def lineEnds : List (List Char) := [['\n'], ['\r'], ['\r', '\n']]

/-- Whether a character belongs to the end of a line. -/
def IsLineEnd (c : Char) : Prop := c = '\n' ∨ c = '\r'

/-- A stretch of a text that is no token, in front of the rest of the text. -/
inductive Skipped : (stretch rest : List Char) → Prop where
  /-- A space, a tab or a form feed. -/
  | blank {c : Char} {rest : List Char} (h : c = ' ' ∨ c = '\t' ∨ c = '\x0c') : Skipped [c] rest
  /-- The end of a line. -/
  | lineEnd {stretch rest : List Char} (h : stretch ∈ lineEnds) : Skipped stretch rest
  /-- A comment, up to the end of its line. -/
  | comment {body rest : List Char} (inside : ∀ c ∈ body, ¬ IsLineEnd c)
      (after : ∀ c ∈ rest.head?, IsLineEnd c) : Skipped ('#' :: body) rest
  /-- A backslash with the end of its line directly behind it. -/
  | lineJoin {ending rest : List Char} (h : ending ∈ lineEnds) : Skipped ('\\' :: ending) rest

/-- The text that stands at an offset is laid out as the tokens and skipped stretches. -/
inductive Tiles : (start : Nat) → List Char → List Token → Prop where
  /-- Nothing is left. -/
  | done {start : Nat} : Tiles start [] []
  /-- A token stands at the front. -/
  | token {start : Nat} {word rest : List Char} {t : Token} {tokens : List Token}
      (range : t.range = ⟨start, byteLength word⟩)
      (tail : Tiles (start + byteLength word) rest tokens) :
      Tiles start (word ++ rest) (t :: tokens)
  /-- A skipped stretch stands at the front. -/
  | skip {start : Nat} {stretch rest : List Char} {tokens : List Token}
      (skipped : Skipped stretch rest)
      (tail : Tiles (start + byteLength stretch) rest tokens) : Tiles start (stretch ++ rest) tokens

/-- An offset between two characters of a text, or at one of its ends. -/
def OnBoundary (text : List Char) (offset : Nat) : Prop :=
  ∃ before after, text = before ++ after ∧ byteLength before = offset

/-- An offset lies in a skipped stretch of a text, which no token reaches into. -/
def InSkipped (text : List Char) (tokens : List Token) (offset : Nat) : Prop :=
  ∃ before stretch after, text = before ++ stretch ++ after ∧ Skipped stretch after ∧
    byteLength before ≤ offset ∧ offset < byteLength (before ++ stretch) ∧
    ∀ t ∈ tokens, t.stop ≤ byteLength before ∨ byteLength (before ++ stretch) ≤ t.start

namespace Tiles

variable {start : Nat} {text : List Char} {t : Token} {tokens layout : List Token}

/-- Tokens without length may stand in front. -/
theorem prepend (h : ∀ t ∈ layout, t.range = ⟨start, 0⟩) (tail : Tiles start text tokens) :
    Tiles start text (layout ++ tokens) := by
  induction layout with
  | nil => exact tail
  | cons t layout ih =>
    have hrest := ih fun u hu => h u (List.mem_cons_of_mem _ hu)
    exact @token start [] text t _ (h t List.mem_cons_self) hrest

/-- Every token stands within the text. -/
theorem bounds (h : Tiles start text tokens) (ht : t ∈ tokens) :
    start ≤ t.start ∧ t.stop ≤ start + byteLength text := by
  induction h with
  | done => cases ht
  | token range tail ih =>
    simp only [Token.start, Token.stop, TextRange.stop, byteLength_append] at *
    rcases List.mem_cons.1 ht with rfl | ht
    · simp only [range]
      omega
    · have := ih ht
      omega
  | skip skipped tail ih =>
    have := ih ht
    simp only [byteLength_append]
    omega

/-- Of two tokens the first stops before the second starts. -/
theorem pairwise (h : Tiles start text tokens) :
    tokens.Pairwise fun a b => a.stop ≤ b.start := by
  induction h with
  | done => exact .nil
  | token range tail ih =>
    refine .cons (fun b hb => ?_) ih
    have hbound := (tail.bounds hb).1
    simpa only [Token.stop, TextRange.stop, range] using hbound
  | skip skipped tail ih => exact ih

/-- Tokens start and stop between characters. -/
theorem onBoundary (h : Tiles start text tokens) (before : List Char)
    (hstart : byteLength before = start) (ht : t ∈ tokens) :
    OnBoundary (before ++ text) t.start ∧ OnBoundary (before ++ text) t.stop := by
  induction h generalizing before with
  | done => cases ht
  | @token start word rest u tokens range tail ih =>
    rcases List.mem_cons.1 ht with rfl | ht
    · simp only [Token.start, Token.stop, TextRange.stop, range]
      refine ⟨⟨before, word ++ rest, rfl, hstart⟩, ⟨before ++ word, rest, ?_, ?_⟩⟩
      · rw [List.append_assoc]
      · rw [byteLength_append, hstart]
    · have := ih (before ++ word) (by rw [byteLength_append, hstart]) ht
      rwa [List.append_assoc] at this
  | @skip start stretch rest tokens skipped tail ih =>
    have := ih (before ++ stretch) (by rw [byteLength_append, hstart]) ht
    rwa [List.append_assoc] at this

/-- What no token covers is skipped. -/
theorem inSkipped (h : Tiles start text tokens) (earlier : List Token) (before : List Char)
    (hstart : byteLength before = start) (hearlier : ∀ t ∈ earlier, t.stop ≤ start) {offset : Nat}
    (hlow : start ≤ offset) (hhigh : offset < start + byteLength text)
    (hfree : ∀ t ∈ tokens, ¬ (t.start ≤ offset ∧ offset < t.stop)) :
    InSkipped (before ++ text) (earlier ++ tokens) offset := by
  induction h generalizing before earlier with
  | done => simp only [byteLength_nil] at hhigh; omega
  | @token start word rest u tokens range tail ih =>
    have hstop : u.stop = start + byteLength word := by
      simp only [Token.stop, TextRange.stop, range]
    have hnot := hfree u List.mem_cons_self
    rw [hstop, Token.start, range] at hnot
    rw [byteLength_append] at hhigh
    have key := ih (earlier ++ [u]) (before ++ word)
      (by rw [byteLength_append, hstart])
      (by
        intro t ht
        rcases List.mem_append.1 ht with ht | ht
        · have := hearlier t ht
          omega
        · exact Nat.le_of_eq (List.mem_singleton.1 ht ▸ hstop))
      (by dsimp only at hnot; omega) (by omega)
      (fun t ht => hfree t (List.mem_cons_of_mem _ ht))
    simpa only [List.append_assoc, List.singleton_append] using key
  | @skip start stretch rest tokens skipped tail ih =>
    rw [byteLength_append] at hhigh
    -- The byte is in the stretch that is passed over, or it comes after that.
    by_cases hin : offset < start + byteLength stretch
    · refine ⟨before, stretch, rest, by rw [List.append_assoc], skipped, by omega,
        by rw [byteLength_append]; omega, fun t ht => ?_⟩
      rw [byteLength_append, hstart]
      rcases List.mem_append.1 ht with ht | ht
      · exact .inl (hearlier t ht)
      · exact .inr (tail.bounds ht).1
    · have key := ih earlier (before ++ stretch) (by rw [byteLength_append, hstart])
        (fun t ht => Nat.le_add_right_of_le (hearlier t ht)) (by omega) (by omega) hfree
      rwa [List.append_assoc] at key

end Tiles

/-! ## The pieces of a text -/

/-- A lexeme that is written in the text; the others come from its layout or its end. -/
def Lexeme.IsWritten : Lexeme → Prop
  | .newLine _ | .indent _ | .dedent _ _ | .endOfStream => False
  | _ => True

/-- Whether a lexeme is a mark: it is written, and it is no word, no number and no string. -/
def Lexeme.isMark : Lexeme → Bool
  | .newLine _ | .indent _ | .dedent _ _ | .endOfStream => false
  | .identifier _ | .keyword _ | .number _ | .string _ => false
  | _ => true

/-- A mark is written. -/
theorem Lexeme.isWritten_of_isMark {x : Lexeme} (h : x.isMark = true) : x.IsWritten := by
  cases x <;> trivial

namespace Piece

/-- A piece is passed over, or it is a token that is written in the text. -/
def Accounted (c : Char) (rest : List Char) (s : SizedPiece) : Prop :=
  (∃ lexeme, s.piece = .lexeme lexeme ∧ lexeme.IsWritten) ∨
    ((∀ lexeme, s.piece ≠ .lexeme lexeme) ∧ Skipped (c :: rest.take s.more) (rest.drop s.more))

variable {c : Char} {rest : List Char}

/-- A token is accounted for. -/
theorem accounted_lexeme {lexeme : Lexeme} {more : Nat} (h : lexeme.IsWritten) :
    Accounted c rest ⟨.lexeme lexeme, more⟩ := .inl ⟨lexeme, rfl, h⟩

/-- A comment reaches to the end of its line. -/
theorem skipped_comment (rest : List Char) :
    let n := (rest.takeWhile fun d => d != '\n' && d != '\r').length
    Skipped ('#' :: rest.take n) (rest.drop n) := by
  generalize hp : (fun d : Char => d != '\n' && d != '\r') = p
  have hend : ∀ d, p d = false ↔ IsLineEnd d := by
    intro d
    simp only [← hp, IsLineEnd, Bool.and_eq_false_iff, bne_eq_false_iff_eq]
  have hsplit := List.takeWhile_append_dropWhile (p := p) (l := rest)
  have htake : rest.take (rest.takeWhile p).length = rest.takeWhile p := by
    rw [← congrArg (List.take _) hsplit, List.take_left']
    rfl
  have hdrop : rest.drop (rest.takeWhile p).length = rest.dropWhile p := by
    rw [← congrArg (List.drop _) hsplit, List.drop_left']
    rfl
  dsimp only
  rw [htake, hdrop]
  refine .comment (fun d hd => ?_) (fun d hd => ?_)
  · rw [← hend, List.mem_takeWhile_imp hd]
    decide
  · have hhead := List.head?_dropWhile_not p rest
    rw [Option.mem_def.1 hd] at hhead
    exact (hend d).1 (by simpa using hhead)

/-- A stretch that is passed over is what is taken, if so many characters are. -/
theorem skipped_take {tail after : List Char} (hrest : rest = tail ++ after)
    (h : Skipped (c :: tail) after) :
    Skipped (c :: rest.take tail.length) (rest.drop tail.length) := by
  rw [hrest]
  simpa using h

/-- Punctuation is a mark. -/
theorem isMark_punctuation {mark : Lexeme} (h : punctuation? c = some mark) :
    mark.isMark = true := by
  simp only [punctuation?] at h
  split at h <;> cases h <;> rfl

/-- What stands at the front of a text is passed over, or it is a mark, a string, a number or a
word. -/
theorem at_induction {P : SizedPiece → Prop} (c : Char) (rest : List Char)
    (hskipped : ∀ piece more, (∀ x, piece ≠ .lexeme x) →
      Skipped (c :: rest.take more) (rest.drop more) → P ⟨piece, more⟩)
    (hmark : ∀ x more, x.isMark = true → P ⟨.lexeme x, more⟩)
    (hstring : ∀ literal more, P ⟨.lexeme (.string literal), more⟩)
    (hnumber : c.isDigit = true ∨ c = '.' → P (number (c :: rest)))
    (hword : Letter.startsWord c = true → P (wordOrString (c :: rest))) : P (Piece.at c rest) := by
  have hend : ∀ kind tail after, rest = tail ++ after → Skipped (c :: tail) after →
      P ⟨.lineEnd kind, tail.length⟩ := fun _ _ _ hrest h =>
    hskipped _ _ (fun _ heq => by cases heq) (skipped_take hrest h)
  have hjoined : ∀ tail after, rest = tail ++ after → Skipped (c :: tail) after →
      P ⟨.lineJoin, tail.length⟩ := fun _ _ hrest h =>
    hskipped _ _ (fun _ heq => by cases heq) (skipped_take hrest h)
  unfold Piece.at
  refine iteInduction (fun hblank => ?_) fun _ => ?_
  · exact hskipped _ _ (fun _ heq => by cases heq) (.blank (by simpa [or_assoc] using hblank))
  refine iteInduction (fun hfeed => ?_) fun _ => ?_
  · exact hend _ [] _ rfl (.lineEnd (by simp [lineEnds, hfeed]))
  refine iteInduction (fun hreturn => ?_) fun _ => ?_
  · refine iteInduction (fun hboth => ?_) fun _ => ?_
    · obtain ⟨after, rfl⟩ := List.head?_eq_some_iff.1 hboth
      exact hend _ ['\n'] _ rfl (.lineEnd (by simp [lineEnds, hreturn]))
    · exact hend _ [] _ rfl (.lineEnd (by simp [lineEnds, hreturn]))
  refine iteInduction (fun hcomment => ?_) fun _ => ?_
  · exact hskipped _ _ (fun _ heq => by cases heq) (hcomment ▸ skipped_comment rest)
  -- A backslash is passed over only with the end of its line.
  refine iteInduction (fun hjoin => ?_) fun _ => ?_
  · obtain ⟨hc, htwo⟩ : c = '\\' ∧ rest.take 2 = ['\r', '\n'] := by simpa using hjoin
    have hrest : rest = ['\r', '\n'] ++ rest.drop 2 := by
      rw [← htwo, List.take_append_drop]
    exact hjoined ['\r', '\n'] _ hrest (hc ▸ .lineJoin (by simp [lineEnds]))
  refine iteInduction (fun hjoin => ?_) fun _ => ?_
  · obtain ⟨hc, hend⟩ : c = '\\' ∧ (rest.head? = some '\n' ∨ rest.head? = some '\r') := by
      simpa using hjoin
    rcases hend with hend | hend <;> obtain ⟨after, rfl⟩ := List.head?_eq_some_iff.1 hend
    · exact hjoined ['\n'] _ rfl (hc ▸ .lineJoin (by simp [lineEnds]))
    · exact hjoined ['\r'] _ rfl (hc ▸ .lineJoin (by simp [lineEnds]))
  -- All that is left are marks, numbers, strings and words.
  split
  · exact hmark _ _ (isMark_punctuation ‹_›)
  refine iteInduction (fun _ => ?_) fun _ => ?_
  · exact iteInduction (fun _ => hmark _ _ rfl) fun _ => hmark _ _ rfl
  refine iteInduction (fun hpoint => ?_) fun _ => ?_
  · refine iteInduction (fun _ => hnumber (.inr hpoint)) fun _ => ?_
    exact iteInduction (fun _ => hmark _ _ rfl) fun _ => hmark _ _ rfl
  refine iteInduction (fun _ => hmark _ _ rfl) fun _ => ?_
  refine iteInduction (fun hdigit => hnumber (.inl hdigit)) fun _ => ?_
  refine iteInduction (fun _ => hstring _ _) fun _ => ?_
  split
  · exact hmark _ _ rfl
  · exact iteInduction hword fun _ => hmark _ _ rfl

/-- What a word or a string amounts to is a token. -/
theorem accounted_wordOrString (text : List Char) : Accounted c rest (wordOrString text) := by
  simp only [wordOrString]
  split
  · exact accounted_lexeme trivial
  · split <;> exact accounted_lexeme trivial

/-- Every piece of a text is a token or is passed over. -/
theorem accounted_at (c : Char) (rest : List Char) : Accounted c rest (Piece.at c rest) :=
  at_induction c rest (fun _ _ hpiece h => .inr ⟨hpiece, h⟩)
    (fun _ _ hmark => accounted_lexeme (Lexeme.isWritten_of_isMark hmark))
    (fun _ _ => accounted_lexeme trivial) (fun _ => accounted_lexeme trivial)
    fun _ => accounted_wordOrString _

end Piece

/-! ## The tokens that a piece adds -/

namespace Layout

variable {l : Layout} {start : Nat}

/-- A state has the tokens of another one, and after them some without length at an offset. -/
def AddsAt (l' l : Layout) (start : Nat) : Prop :=
  ∃ added : List Token, (∀ t ∈ added, t.range = ⟨start, 0⟩ ∧ t.lexeme ≠ .endOfStream) ∧
    l'.tokens = added.reverse ++ l.tokens

/-- Nothing need be added. -/
theorem AddsAt.refl (l : Layout) (start : Nat) : AddsAt l l start := ⟨[], nofun, rfl⟩

/-- What is added to what is added is added. -/
theorem AddsAt.trans {l₂ l₁ l : Layout} (h₂ : AddsAt l₂ l₁ start) (h₁ : AddsAt l₁ l start) :
    AddsAt l₂ l start := by
  obtain ⟨added₂, hadded₂, htokens₂⟩ := h₂
  obtain ⟨added₁, hadded₁, htokens₁⟩ := h₁
  refine ⟨added₁ ++ added₂, fun t ht => ?_, ?_⟩
  · exact (List.mem_append.1 ht).elim (hadded₁ t) (hadded₂ t)
  · rw [htokens₂, htokens₁, List.reverse_append, List.append_assoc]

/-- A layout token may be added. -/
theorem addsAt_push (l : Layout) {lexeme : Lexeme} (h : lexeme ≠ .endOfStream) :
    AddsAt (l.push start 0 lexeme) l start := ⟨[⟨⟨start, 0⟩, lexeme⟩], by simpa using h, rfl⟩

/-- Adding layout tokens one by one puts them behind the others and leaves all else. -/
theorem foldl_push (lexemes : List Lexeme) (start : Nat) (l : Layout) :
    lexemes.foldl (fun l d => l.push start 0 d) l =
      { l with tokens := (lexemes.map (Token.mk ⟨start, 0⟩)).reverse ++ l.tokens } := by
  induction lexemes generalizing l with
  | nil => rfl
  | cons d lexemes ih =>
    rw [List.foldl_cons, ih]
    simp [push]

/-- Adding layout tokens one by one adds them all. -/
theorem addsAt_foldl_push (lexemes : List Lexeme) (h : ∀ x ∈ lexemes, x ≠ .endOfStream)
    (l : Layout) : AddsAt (lexemes.foldl (fun l d => l.push start 0 d) l) l start := by
  refine ⟨lexemes.map (Token.mk ⟨start, 0⟩), fun t ht => ?_, by rw [foldl_push]⟩
  obtain ⟨x, hx, rfl⟩ := List.mem_map.1 ht
  exact ⟨rfl, h x hx⟩

/-- Tokens that close blocks are dedentations. -/
theorem kind_of_mem_closeBlocks {width : Nat} {stack : List Nat} {x : Lexeme}
    (h : x ∈ (closeBlocks width stack).1) : x.kind = .dedent := by
  induction stack with
  | nil => cases h
  | cons top below ih =>
    by_cases hwider : width < top
    · simp only [closeBlocks, hwider, if_true, List.mem_cons] at h
      rcases h with rfl | h
      · rfl
      · exact ih h
    · simp [closeBlocks, hwider] at h

/-- Tokens that close blocks do not end the stream. -/
theorem ne_endOfStream_of_mem_closeBlocks {width : Nat} {stack : List Nat} {x : Lexeme}
    (h : x ∈ (closeBlocks width stack).1) : x ≠ .endOfStream := by
  rintro rfl
  cases kind_of_mem_closeBlocks h

/-- Leaving the blanks at the start of a line adds layout tokens only. -/
theorem addsAt_leaveBlanks (counts : Bool) : AddsAt (l.leaveBlanks start counts) l start := by
  unfold leaveBlanks
  split
  · exact .refl l start
  · cases counts with
    | false => exact .refl l start
    | true =>
      simp only [if_true, indentTo]
      split
      · exact addsAt_push l nofun
      · exact addsAt_foldl_push _ (fun x hx => ne_endOfStream_of_mem_closeBlocks hx) l

/-- Going past a piece adds layout tokens where it starts, and then at most one token, on the
piece; none only if the piece is no token. -/
theorem absorb_tokens (c : Char) (length : Nat) {piece : Piece}
    (h : piece ≠ .lexeme .endOfStream) :
    ∃ l', AddsAt l' l start ∧
      (((∀ x, piece ≠ .lexeme x) ∧ (l.absorb c start length piece).tokens = l'.tokens) ∨
        ∃ x, x ≠ .endOfStream ∧
          (l.absorb c start length piece).tokens = ⟨⟨start, length⟩, x⟩ :: l'.tokens) := by
  cases piece with
  | blank => exact ⟨l, .refl l start, .inl ⟨nofun, rfl⟩⟩
  | comment => exact ⟨_, addsAt_leaveBlanks false, .inl ⟨nofun, rfl⟩⟩
  | lineJoin => exact ⟨_, addsAt_leaveBlanks true, .inl ⟨nofun, rfl⟩⟩
  | lexeme x => exact ⟨_, addsAt_leaveBlanks true, .inr ⟨x, fun hx => h (hx ▸ rfl), rfl⟩⟩
  | lineEnd kind =>
    refine ⟨_, addsAt_leaveBlanks false, ?_⟩
    simp only [absorb]
    split
    · exact .inl ⟨nofun, rfl⟩
    · split
      · exact .inr ⟨.newLine kind, nofun, rfl⟩
      · exact .inl ⟨nofun, rfl⟩

/-- The end of the text adds layout tokens and the end of the stream. -/
theorem finish_tokens (l : Layout) (stop : Nat) :
    ∃ l', AddsAt l' l stop ∧ (l.finish stop).tokens = ⟨⟨stop, 0⟩, .endOfStream⟩ :: l'.tokens := by
  have hclose (l : Layout) := @addsAt_foldl_push stop (closeBlocks 0 l.indents).1
    (fun x hx => ne_endOfStream_of_mem_closeBlocks hx) l
  simp only [finish]
  split
  · exact ⟨_, (hclose (l.push stop 0 (.newLine .implied))).trans (addsAt_push l nofun), rfl⟩
  · exact ⟨_, hclose l, rfl⟩

/-- Reading a text adds tokens that tile it, of which only the last ends the stream. -/
theorem readFrom_tokens (l : Layout) (start : Nat) (text : List Char) :
    ∃ tokens : List Token, (∀ t ∈ tokens, t.lexeme ≠ .endOfStream) ∧
      Tiles start text (tokens ++ [⟨⟨start + byteLength text, 0⟩, .endOfStream⟩]) ∧
      (l.readFrom start text).tokens =
        ⟨⟨start + byteLength text, 0⟩, .endOfStream⟩ :: (tokens.reverse ++ l.tokens) := by
  fun_induction l.readFrom start text with
  | case1 l start =>
    obtain ⟨l', ⟨added, hadded, htokens⟩, hfinish⟩ := finish_tokens l start
    have hlast : Tiles start [] [⟨⟨start, 0⟩, .endOfStream⟩] :=
      @Tiles.token start [] [] _ _ rfl .done
    exact ⟨added, fun t ht => (hadded t ht).2, hlast.prepend fun t ht => (hadded t ht).1,
      by rw [hfinish, htokens]; rfl⟩
  | case2 l start c rest sized length ih =>
    obtain ⟨tokens, hends, htiles, hread⟩ := ih
    have hpiece : sized.piece ≠ .lexeme .endOfStream := by
      rcases Piece.accounted_at c rest with ⟨x, hx, hwritten⟩ | ⟨hx, _⟩
      · intro h
        obtain rfl := Piece.lexeme.inj (hx.symm.trans h)
        exact hwritten
      · exact hx _
    obtain ⟨l', ⟨added, hadded, hl'⟩, habsorb⟩ := @absorb_tokens l start c length _ hpiece
    have hword : c :: rest = (c :: rest.take sized.more) ++ rest.drop sized.more := by
      rw [List.cons_append, List.take_append_drop]
    have hlength : byteLength (c :: rest.take sized.more) = length := rfl
    have hstop : start + byteLength (c :: rest) =
        start + length + byteLength (rest.drop sized.more) := by
      rw [hword, byteLength_append, hlength]
      exact (Nat.add_assoc _ _ _).symm
    rw [hread, hstop]
    -- The stretch at the front is passed over or is a token.
    rcases habsorb with ⟨hskip, htokens⟩ | ⟨x, hx, htokens⟩
    · refine ⟨added ++ tokens, ?_, ?_, by simp [htokens, hl']⟩
      · exact fun t ht => (List.mem_append.1 ht).elim (fun h => (hadded t h).2) (hends t)
      · rw [List.append_assoc, hword]
        refine Tiles.prepend (fun t ht => (hadded t ht).1) (.skip ?_ htiles)
        rcases Piece.accounted_at c rest with ⟨x, hx, _⟩ | ⟨_, h⟩
        · exact absurd hx (hskip x)
        · exact h
    · refine ⟨added ++ ⟨⟨start, length⟩, x⟩ :: tokens, ?_, ?_, by simp [htokens, hl']⟩
      · intro t ht
        rcases List.mem_append.1 ht with ht | ht
        · exact (hadded t ht).2
        · exact (List.mem_cons.1 ht).elim (fun h => h ▸ hx) (hends t)
      · rw [List.append_assoc, hword]
        exact Tiles.prepend (fun t ht => (hadded t ht).1) (.token rfl htiles)

end Layout

/-! ## The tokens of a text -/

namespace Tokens

/-- The tokens of a text tile it, and the end of the stream is the last of them and no other. -/
theorem tiles_ofText (text : List Char) :
    Tiles 0 text (ofText text) ∧
      ∃ tokens : List Token, (∀ t ∈ tokens, t.lexeme ≠ .endOfStream) ∧
        ofText text = tokens ++ [⟨⟨byteLength text, 0⟩, .endOfStream⟩] := by
  obtain ⟨tokens, hends, htiles, hread⟩ := Layout.initial.readFrom_tokens 0 text
  rw [Nat.zero_add] at htiles hread
  have hof : ofText text = tokens ++ [⟨⟨byteLength text, 0⟩, .endOfStream⟩] := by
    rw [ofText, hread]
    simp [Layout.initial]
  exact ⟨hof ▸ htiles, tokens, hends, hof⟩

/-- Nothing of a text is lost: its tokens are in order, apart from each other, within the text and
between its characters, the last one stops where the text does, and every byte outside of them
lies in a stretch that is skipped as a whole. -/
theorem ofText_covers (text : List Char) :
    (ofText text).Pairwise (fun a b => a.stop ≤ b.start) ∧
      (ofText text).getLast?.map Token.stop = some (byteLength text) ∧
      (∀ t ∈ ofText text, t.stop ≤ byteLength text ∧ OnBoundary text t.start ∧
        OnBoundary text t.stop) ∧
      ∀ offset < byteLength text, (∀ t ∈ ofText text, ¬ (t.start ≤ offset ∧ offset < t.stop)) →
        InSkipped text (ofText text) offset := by
  obtain ⟨htiles, tokens, -, hof⟩ := tiles_ofText text
  refine ⟨htiles.pairwise, ?_, fun t ht => ⟨?_, htiles.onBoundary [] rfl ht⟩, ?_⟩
  · rw [hof, List.getLast?_append]
    rfl
  · have := (htiles.bounds ht).2
    omega
  · intro offset hoffset hfree
    have := htiles.inSkipped [] [] rfl nofun (Nat.zero_le _) (by omega) hfree
    simpa using this

end Tokens

end TypeProbe
