import TypeProbe.Proofs.Written.Line

/-!
# Lines of nested constructs

A line of `Prefix.line` is the number one behind some constructs, each of which is an opening
parenthesis or a sign, with a closing parenthesis for each opening one behind it and no blanks
between them. Each of its characters is a token of its own, whatever comes next on the line
(`Layout.Singly`), so the line has the lexemes of `Prefix.words`. The parentheses match, so the line
ends where it should, and it is a whole line without blocks (`Prefix.isPlain_line`).
-/

namespace TypeProbe

/-- A token that is no keyword, no indentation and no mark of a decorator opens no block. -/
theorem Token.not_opensBlock (range : TextRange) {x : Lexeme} (hkind : x.kind ≠ .indent)
    (hop : x ≠ .operator .matrixMultiply) (hkeyword : ∀ k, x ≠ .keyword k) :
    ¬ OpensBlock ⟨range, x⟩ := by
  rintro (h | h | ⟨k, -, h⟩)
  · exact hkind h
  · exact hop (Parser.operator?_eq_some_iff.1 h)
  · exact hkeyword k (Parser.keyword?_eq_some_iff.1 h)

/-- What may stand in front of an operand: an opening parenthesis or a sign. -/
inductive Prefix where
  /-- An opening parenthesis, which is closed behind the operand. -/
  | parenthesis
  /-- A sign. -/
  | sign (sign : Sign)
deriving DecidableEq

namespace Prefix

/-- How a construct begins. -/
def word : Prefix → Word
  | .parenthesis => .opening
  | .sign s => .symbol s.operator

/-- A closing parenthesis for each opening one. -/
def closings : List Prefix → List Word
  | [] => []
  | .parenthesis :: ps => closings ps ++ [.closing]
  | .sign _ :: ps => closings ps

/-- The number one in some constructs. -/
def words (ps : List Prefix) : List Word := ps.map word ++ .integer 1 :: closings ps

/-- The characters of the words, and the end of the line. -/
def chars (ps : List Prefix) : List Char := (words ps).flatMap Word.spelling ++ ['\n']

/-- A line of the words. -/
def line (ps : List Prefix) : String := String.ofList (chars ps)

/-- What the words are: the number one with the signs. -/
def expression : List Prefix → Expression
  | [] => .integer 1
  | .parenthesis :: ps => expression ps
  | .sign s :: ps => .signed s (expression ps)

/-- A word that such lines are made of. -/
def IsPart (w : Word) : Prop := (∃ p : Prefix, w = p.word) ∨ w = .integer 1 ∨ w = .closing

/-- A negated number in parentheses, with a sign in front. -/
example : line [.sign ⟨.subtract, rfl⟩, .parenthesis, .sign ⟨.bitwiseInvert, rfl⟩] =
    String.ofList ['-', '(', '~', '1', ')', '\n'] := by decide +kernel

/-- Parentheses stand around the other words. -/
theorem words_parenthesis (ps : List Prefix) :
    words (.parenthesis :: ps) = .opening :: (words ps ++ [.closing]) := by
  simp [words, closings, word]

/-- A sign stands in front of the other words. -/
theorem words_sign (s : Sign) (ps : List Prefix) :
    words (.sign s :: ps) = .symbol s.operator :: words ps := rfl

/-- There are only closing parentheses behind the number. -/
theorem eq_closing_of_mem_closings (ps : List Prefix) : ∀ w ∈ closings ps, w = .closing := by
  intro w hw
  induction ps with
  | nil => cases hw
  | cons p ps ih =>
    cases p with
    | parenthesis =>
      rcases List.mem_append.1 hw with hw | hw
      · exact ih hw
      · exact List.mem_singleton.1 hw
    | sign s => exact ih hw

/-- The words in front of closing parentheses are what the lines are made of. -/
theorem isPart_of_mem {ps : List Prefix} {ws : List Word} (h : ∀ w ∈ ws, w = .closing) {w : Word}
    (hw : w ∈ ps.map word ++ .integer 1 :: ws) : IsPart w := by
  rcases List.mem_append.1 hw with hw | hw
  · obtain ⟨p, -, rfl⟩ := List.mem_map.1 hw
    exact .inl ⟨p, rfl⟩
  · rcases List.mem_cons.1 hw with rfl | hw
    · exact .inr (.inl rfl)
    · exact .inr (.inr (h w hw))

/-- Such a word can be written, and it names no expression. -/
theorem IsPart.spelled {w : Word} (h : IsPart w) :
    w.IsSpelled ∧ w.lexeme ≠ .operator .walrus := by
  rcases h with ⟨p, rfl⟩ | rfl | rfl
  · cases p with
    | parenthesis => decide
    | sign s =>
      obtain ⟨operator, isSign⟩ := s
      cases operator <;> cases isSign <;> decide
  · exact ⟨by decide, nofun⟩
  · decide

/-- Such a word ends no line. -/
theorem IsPart.staysOnLine {w : Word} (h : IsPart w) :
    Parser.endsLine w.lexeme.kind = false := by
  rcases h with ⟨p, rfl⟩ | rfl | rfl
  · cases p <;> rfl
  · rfl
  · rfl

/-- Such a word opens no block. -/
theorem IsPart.opensNoBlock {w : Word} (h : IsPart w) (range : TextRange) :
    ¬ Token.OpensBlock ⟨range, w.lexeme⟩ := by
  rcases h with ⟨p, rfl⟩ | rfl | rfl
  · cases p with
    | parenthesis => exact Token.not_opensBlock range (by decide) nofun nofun
    | sign s =>
      obtain ⟨operator, isSign⟩ := s
      cases operator <;> cases isSign <;>
        exact Token.not_opensBlock range (by decide) (by decide) nofun
  · exact Token.not_opensBlock range (by decide) nofun nofun
  · exact Token.not_opensBlock range (by decide) nofun nofun

end Prefix

/-! ## Words without blanks -/

/-- Words may stand in front of a text without blanks between them: each is read as its lexeme
there. -/
inductive AreClose (rest : List Char) : List Word → Prop where
  | nil : AreClose rest []
  | cons {w : Word} {ws : List Word} {c : Char} {more : List Char}
    (hspelling : w.spelling = c :: more)
    (hpiece : Piece.at c (more ++ (ws.flatMap Word.spelling ++ rest)) =
      ⟨.lexeme w.lexeme, more.length⟩)
    (hws : AreClose rest ws) : AreClose rest (w :: ws)

namespace Layout

variable {l : Layout} {rest : List Char} {xs : List Lexeme} {n : Nat}

/-- The lexer is on a line that is not indented, has read some lexemes so far, the last one first,
and so many brackets are open. -/
structure IsWithin (l : Layout) (xs : List Lexeme) (n : Nat) : Prop where
  /-- What has been read. -/
  lexemes : l.tokens.map Token.lexeme = xs
  /-- How many brackets are open. -/
  brackets : l.brackets = n
  /-- No block is open. -/
  indents : l.indents = []
  /-- The line is not indented. -/
  leading : l.leading = none ∨ l.leading = some 0
  /-- Once there are lexemes, the line has tokens. -/
  lineHasTokens : xs ≠ [] → l.lineHasTokens = true

/-- Before the first character nothing has been read. -/
theorem isWithin_initial : initial.IsWithin [] 0 :=
  ⟨rfl, rfl, rfl, .inr rfl, fun h => absurd rfl h⟩

/-- A lexeme is passed. -/
theorem IsWithin.absorb (h : l.IsWithin xs n) (c : Char) (start length : Nat) (x : Lexeme) :
    (l.absorb c start length (.lexeme x)).IsWithin (x :: xs) (bracketsAfter n x) := by
  rw [absorb_lexeme h.indents h.leading]
  exact ⟨congrArg (x :: ·) h.lexemes, congrArg (bracketsAfter · x) h.brackets, rfl, .inl rfl,
    fun _ => rfl⟩

/-- Words without blanks between them are passed one by one. -/
theorem IsWithin.through_close {ws : List Word} (hws : AreClose rest ws) (h : l.IsWithin xs n)
    (start : Nat) :
    ∃ (l' : Layout) (start' : Nat),
      l.through start (ws.flatMap Word.spelling ++ rest) = l'.through start' rest ∧
      l'.IsWithin ((ws.map Word.lexeme).reverse ++ xs)
        ((ws.map Word.lexeme).foldl bracketsAfter n) := by
  induction hws generalizing l xs n start with
  | nil => exact ⟨l, start, rfl, h⟩
  | @cons w ws c more hspelling hpiece hws ih =>
    obtain ⟨l', start', hthrough, hwithin⟩ :=
      ih (h.absorb c start (byteLength (c :: more)) w.lexeme) (start + byteLength (c :: more))
    refine ⟨l', start', ?_, ?_⟩
    · rw [List.flatMap_cons, hspelling, List.append_assoc, List.cons_append, through_piece hpiece,
        hthrough]
    · rw [List.map_cons, List.reverse_cons, List.append_assoc]
      exact hwithin

/-- At the end of a line whose brackets are closed the lexer is as it was in the beginning. -/
theorem IsWithin.lineFeed (h : l.IsWithin xs 0) (hne : xs ≠ []) (start : Nat) :
    (l.through start ['\n']).IsFresh ∧
      (l.through start ['\n']).tokens.map Token.lexeme = .newLine .lineFeed :: xs := by
  have hthrough : l.through start ['\n'] =
      l.absorb '\n' start (byteLength ['\n']) (.lineEnd .lineFeed) := by
    have hpiece := @through_piece l '\n' start [] [] (.lineEnd .lineFeed) rfl
    rwa [through] at hpiece
  have hlineHasTokens := h.lineHasTokens hne
  rw [hthrough]
  obtain ⟨tokens, brackets, indents, leading, lineHasTokens⟩ := l
  obtain ⟨rfl, rfl, rfl, hleading, -⟩ := h
  obtain rfl : lineHasTokens = true := hlineHasTokens
  rcases hleading with rfl | rfl <;> exact ⟨⟨rfl, rfl, rfl, rfl⟩, rfl⟩

end Layout

/-! ## The line -/

namespace Prefix

/-- Closing parentheses need no blanks. -/
theorem areClose_closings {ws : List Word} (h : ∀ w ∈ ws, w = .closing) (rest : List Char) :
    AreClose rest ws := by
  induction ws with
  | nil => exact .nil
  | cons w ws ih =>
    obtain rfl := h w List.mem_cons_self
    exact .cons rfl rfl (ih fun w hw => h w (List.mem_cons_of_mem _ hw))

/-- The characters that constructs and the number in them begin with. -/
def openings : List Char := ['(', '+', '-', '~', '1']

/-- A construct is one character, which is read as it is in front of another one. -/
theorem word_spelling (p : Prefix) : ∃ c ∈ openings, p.word.spelling = [c] ∧
    ∀ next ∈ openings, ∀ rest, Piece.at c (next :: rest) = ⟨.lexeme p.word.lexeme, 0⟩ := by
  cases p with
  | parenthesis => exact ⟨'(', by decide, rfl, fun _ _ _ => rfl⟩
  | sign s =>
    obtain ⟨operator, isSign⟩ := s
    cases operator <;> cases isSign
    all_goals
      refine ⟨_, ?_, rfl, ?_⟩
      · decide
      · intro next hnext rest
        simp only [openings, List.mem_cons, List.not_mem_nil, or_false] at hnext
        rcases hnext with rfl | rfl | rfl | rfl | rfl <;> rfl

/-- In front of closing parentheses and the end of the line, the number one behind some constructs
needs no blanks. -/
theorem areClose_words {ws : List Word} (h : ∀ w ∈ ws, w = .closing) (ps : List Prefix) :
    AreClose ['\n'] (ps.map word ++ .integer 1 :: ws) := by
  induction ps with
  | nil =>
    refine @AreClose.cons _ (.integer 1) _ '1' [] rfl ?_ (areClose_closings h _)
    cases ws with
    | nil => rfl
    | cons w ws =>
      obtain rfl := h w List.mem_cons_self
      rfl
  | cons p ps ih =>
    obtain ⟨c, -, hspelling, hread⟩ := p.word_spelling
    -- Another construct comes next, or the number.
    obtain ⟨next, hnext, more, hmore⟩ : ∃ next ∈ openings, ∃ more,
        (ps.map word ++ .integer 1 :: ws).flatMap Word.spelling ++ ['\n'] = next :: more := by
      cases ps with
      | nil => exact ⟨'1', by decide, _, rfl⟩
      | cons q ps =>
        obtain ⟨d, hd, hq, -⟩ := q.word_spelling
        refine ⟨d, hd, (ps.map word ++ .integer 1 :: ws).flatMap Word.spelling ++ ['\n'], ?_⟩
        rw [List.map_cons, List.cons_append, List.flatMap_cons, hq]
        rfl
    show AreClose ['\n'] (p.word :: (ps.map word ++ .integer 1 :: ws))
    refine .cons hspelling ?_ ih
    rw [List.nil_append, hmore]
    exact hread next hnext more

/-- The parentheses match. -/
theorem foldl_bracketsAfter (ps : List Prefix) (n : Nat) :
    ((words ps).map Word.lexeme).foldl Layout.bracketsAfter n = n := by
  induction ps generalizing n with
  | nil => rfl
  | cons p ps ih =>
    cases p with
    | parenthesis =>
      rw [words_parenthesis, List.map_cons, List.foldl_cons, List.map_append, List.foldl_append, ih]
      rfl
    | sign s =>
      rw [words_sign, List.map_cons, List.foldl_cons, ih]
      rfl

/-- The line leaves the lexer as it was, and has the lexemes of its words and one for its end. -/
theorem through_chars (ps : List Prefix) :
    (Layout.initial.through 0 (chars ps)).IsFresh ∧
      (Layout.initial.through 0 (chars ps)).tokens.map Token.lexeme =
        .newLine .lineFeed :: ((words ps).map Word.lexeme).reverse := by
  have hclose : AreClose ['\n'] (words ps) := areClose_words (eq_closing_of_mem_closings ps) ps
  obtain ⟨l, start, hthrough, hwithin⟩ := Layout.isWithin_initial.through_close hclose 0
  rw [List.append_nil, foldl_bracketsAfter] at hwithin
  rw [chars, hthrough]
  exact hwithin.lineFeed (by simp [words]) start

/-- The lexemes of the line are those of its words, the end of the line and the end of the text. -/
theorem lexemes_line (ps : List Prefix) : (Tokens.ofText (line ps).toList).map Token.lexeme =
    (words ps).map Word.lexeme ++ [.newLine .lineFeed, .endOfStream] := by
  obtain ⟨hfresh, hlexemes⟩ := through_chars ps
  rw [line, String.toList_ofList, Tokens.ofText, Layout.readFrom_eq_through, List.map_reverse,
    hfresh.finish, List.map_cons, hlexemes]
  simp

/-- It is a whole line without blocks. -/
theorem isPlain_line (ps : List Prefix) : IsPlain (line ps).toList := by
  refine ⟨?_, ?_, fun t ht => ?_⟩
  · rw [line, String.toList_ofList, chars, List.getLast?_concat]
  · rw [line, String.toList_ofList]
    exact (through_chars ps).1
  · have hlexeme : t.lexeme ∈ (words ps).map Word.lexeme ++ [.newLine .lineFeed, .endOfStream] :=
      lexemes_line ps ▸ List.mem_map.2 ⟨t, mem_of_mem_lineHeads ht, rfl⟩
    obtain ⟨range, x⟩ := t
    rcases List.mem_append.1 hlexeme with hword | hend
    · obtain ⟨w, hw, rfl⟩ := List.mem_map.1 hword
      exact (isPart_of_mem (eq_closing_of_mem_closings ps) hw).opensNoBlock range
    · simp only [List.mem_cons, List.not_mem_nil, or_false] at hend
      rcases hend with rfl | rfl <;> exact Token.not_opensBlock range (by decide) nofun nofun

end Prefix

end TypeProbe
