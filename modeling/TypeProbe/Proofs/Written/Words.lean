import TypeProbe.Proofs.Joined.Tokens

/-!
# Words with blanks between them

A `Word` is a token of an expression as a person writes it: a name, a whole number, a keyword, an
operator or a parenthesis. `spelled` puts single blanks between words. Read back, such a line has
the lexemes of its words, the end of the line and the end of the text (`lexemes_spelled`).
-/

namespace TypeProbe

/-- Whether some characters are a name: a word that is no keyword. -/
def Letter.spellsName : List Char → Bool
  | [] => false
  | c :: more =>
    startsWord c && more.all continuesWord && (Keyword.ofSpelling? (String.ofList (c :: more))).isNone

/-- A name. -/
structure Identifier where
  /-- Its letters. -/
  letters : List Char
  /-- They are no keyword. -/
  spells : Letter.spellsName letters = true
deriving DecidableEq

/-- The name as a text. -/
def Identifier.text (n : Identifier) : String := String.ofList n.letters

/-- The literal of a whole number: its value is exact up to a limit. -/
def NumberLiteral.ofNat (n : Nat) : NumberLiteral where
  value :=
    if n < exactLimit then .int n
    else if n < roundedLimit then .float (Binary64.ofNat n)
    else .float (Binary64.zero false)
  isInteger := true
  isImaginary := false

/-- A token of an expression. -/
inductive Word where
  /-- A name. -/
  | name (n : Identifier)
  /-- A whole number. -/
  | integer (n : Nat)
  /-- A reserved word. -/
  | keyword (k : Keyword)
  /-- An operator that is spelled by signs. -/
  | symbol (op : Operator)
  /-- An opening parenthesis. -/
  | opening
  /-- A closing parenthesis. -/
  | closing
deriving DecidableEq

namespace Word

/-- What is read where a word stands. -/
def lexeme : Word → Lexeme
  | .name n => .identifier n.text
  | .integer n => .number (NumberLiteral.ofNat n)
  | .keyword k => .keyword k
  | .symbol op => .operator op
  | .opening => .openParenthesis
  | .closing => .closeParenthesis

/-- How a word is written; whole numbers are decimal. An operator that is no sign has no spelling. -/
def spelling : Word → List Char
  | .name n => n.letters
  | .integer n => Nat.toDigits 10 n
  | .keyword k => ((Keyword.table.find? (·.1 == k)).map (·.2.2.toList)).getD []
  | .symbol op => ((operatorSpellings.find? (·.2 == op)).map (·.1)).getD []
  | .opening => ['(']
  | .closing => [')']

/-- Whether a word can be written. -/
def IsSpelled (w : Word) : Prop := w.spelling ≠ []

instance (w : Word) : Decidable w.IsSpelled := inferInstanceAs (Decidable (w.spelling ≠ []))

end Word

/-- Words with a blank between them. -/
def spelled (words : List Word) : List Char := [' '].intercalate (words.map Word.spelling)

/-! ## Single words -/

/-- A blank comes next, or nothing. -/
def IsApart (rest : List Char) : Prop := ∀ d ∈ rest.head?, d = ' '

/-- A spelling is read as a lexeme where a blank or nothing follows it. -/
def ReadsAs (spelling : List Char) (x : Lexeme) : Prop :=
  ∃ c more, spelling = c :: more ∧
    ∀ rest, IsApart rest → Piece.at c (more ++ rest) = ⟨.lexeme x, more.length⟩

section Words

variable {rest : List Char}

/-- What is apart is nothing, or starts with a blank. -/
theorem IsApart.eq (h : IsApart rest) : rest = [] ∨ ∃ more, rest = ' ' :: more := by
  cases rest with
  | nil => exact .inl rfl
  | cons d more => exact .inr ⟨more, by rw [h d rfl]⟩

/-- No character of the rest is taken along if none that is a blank is. -/
theorem IsApart.takeWhile_append (h : IsApart rest) {p : Char → Bool} {front : List Char}
    (hfront : ∀ d ∈ front, p d = true) (hblank : p ' ' = false) :
    (front ++ rest).takeWhile p = front := by
  rw [List.takeWhile_append_of_pos hfront]
  rcases h.eq with rfl | ⟨more, rfl⟩
  · simp
  · simp [hblank]

/-- Every sign is read as its operator. -/
theorem readsAs_symbol : ∀ x ∈ operatorSpellings, ReadsAs x.1 (.operator x.2) := by
  have hheads : (operatorSpellings.all fun x => x.1 != []) = true := rfl
  have hall : ∀ rest, IsApart rest → (operatorSpellings.all fun x => x.1.head?.all fun c =>
      Piece.at c (x.1.tail ++ rest) == ⟨.lexeme (.operator x.2), x.1.tail.length⟩) = true := by
    intro rest hrest
    rcases hrest.eq with rfl | ⟨more, rfl⟩ <;> rfl
  rintro ⟨spelling, op⟩ hx
  cases spelling with
  | nil => cases List.all_eq_true.1 hheads _ hx
  | cons c more => exact ⟨c, more, rfl, fun rest hrest =>
      eq_of_beq (List.all_eq_true.1 (hall rest hrest) _ hx)⟩

/-- A word apart is read as the keyword or name it is. -/
theorem at_word {c : Char} {more : List Char} (hc : Letter.startsWord c = true)
    (hmore : ∀ d ∈ more, Letter.continuesWord d = true) (hrest : IsApart rest) :
    Piece.at c (more ++ rest) = Piece.ofWord (c :: more) := by
  have hall : ∀ d ∈ c :: more, Letter.continuesWord d = true := by
    intro d hd
    rcases List.mem_cons.1 hd with rfl | hd
    · rw [Letter.continuesWord]
      rw [Letter.startsWord] at hc
      rw [hc]
      rfl
    · exact hmore d hd
  have htake : ((c :: more) ++ rest).takeWhile Letter.continuesWord = c :: more :=
    hrest.takeWhile_append hall rfl
  rw [Piece.at_of_startsWord hc, ← List.cons_append, Piece.wordOrString_of_not_quote, htake]
  intro quote after hafter hquote
  rw [htake, List.drop_left] at hafter
  have hblank := hrest quote (by rw [hafter]; rfl)
  rcases hquote with rfl | rfl <;> cases hblank

/-- A name is read as itself. -/
theorem Identifier.readsAs (n : Identifier) : ReadsAs n.letters (.identifier n.text) := by
  obtain ⟨letters, hspells⟩ := n
  cases letters with
  | nil => cases hspells
  | cons c more =>
    obtain ⟨⟨hc, hmore⟩, hkeyword⟩ : (Letter.startsWord c = true ∧
        more.all Letter.continuesWord = true) ∧
        (Keyword.ofSpelling? (String.ofList (c :: more))).isNone = true := by
      simpa only [Letter.spellsName, Bool.and_eq_true] using hspells
    refine ⟨c, more, rfl, fun rest hrest => ?_⟩
    rw [at_word hc (List.all_eq_true.1 hmore) hrest, Piece.ofWord, Option.isNone_iff_eq_none.1 hkeyword]
    rfl

/-- A keyword is read as itself. -/
theorem readsAs_keyword (k : Keyword) : ReadsAs (Word.keyword k).spelling (.keyword k) := by
  obtain ⟨c, more, hspelling, hc, hmore, hword⟩ : ∃ c more, (Word.keyword k).spelling = c :: more ∧
      Letter.startsWord c = true ∧ more.all Letter.continuesWord = true ∧
      Piece.ofWord (c :: more) = ⟨.lexeme (.keyword k), more.length⟩ := by
    cases k <;> exact ⟨_, _, rfl, rfl, rfl, rfl⟩
  refine ⟨c, more, hspelling, fun rest hrest => ?_⟩
  rw [at_word hc (List.all_eq_true.1 hmore) hrest, hword]

/-- A digit has its value. -/
theorem digitInRadix?_of_isDigit {d : Char} (h : d.isDigit = true) :
    digitInRadix? 10 d = some (d.toNat - '0'.toNat) := by
  obtain ⟨hlow, hhigh⟩ := Bool.and_eq_true_iff.1 h
  have hlow : '0' ≤ d := of_decide_eq_true hlow
  have hhigh : d ≤ '9' := of_decide_eq_true hhigh
  have hvalue : d.toNat - '0'.toNat < 10 := by
    have hnine : d.toNat ≤ '9'.toNat := hhigh
    have : '9'.toNat = 57 := rfl
    have : '0'.toNat = 48 := rfl
    omega
  rw [digitInRadix?, digitValue?, if_pos ⟨hlow, hhigh⟩, Option.filter_some, decide_eq_true hvalue]
  rfl

/-- Digits and underscores are read as a whole number. -/
theorem readDecimal_row {row : List Char}
    (hrow : ∀ d ∈ row, NumberLiteral.isDigitOrUnderscore 10 d = true) (hrest : IsApart rest) :
    NumberLiteral.readDecimal (row ++ rest) =
      (⟨NumberLiteral.integerValue 10 (row.filterMap (digitInRadix? 10)), true, false⟩,
        row.length) := by
  have hwhole : (row ++ rest).takeWhile (NumberLiteral.isDigitOrUnderscore 10) = row :=
    hrest.takeWhile_append hrow rfl
  simp only [NumberLiteral.readDecimal, hwhole, List.drop_left]
  -- Neither a point nor a power of ten nor the mark of the imaginary unit comes behind.
  rcases hrest.eq with rfl | ⟨more, rfl⟩
  · simp [NumberLiteral.withSuffix, NumberLiteral.exponentSpelling, NumberLiteral.startsImaginary]
  · simp [NumberLiteral.withSuffix, NumberLiteral.exponentSpelling, NumberLiteral.startsImaginary,
      isLetter]

/-- Digits are read as the number whose digits they are. -/
theorem readDecimal_digits {digits : List Char} (hdigits : ∀ d ∈ digits, d.isDigit = true)
    (hne : digits ≠ []) (hrest : IsApart rest) :
    NumberLiteral.readDecimal (digits ++ rest) =
      (NumberLiteral.ofNat (Nat.ofDigitChars 10 digits 0), digits.length) := by
  have hvalues : digits.filterMap (digitInRadix? 10) = digits.map fun d => d.toNat - '0'.toNat := by
    rw [← List.filterMap_eq_map]
    exact List.filterMap_congr fun d hd => digitInRadix?_of_isDigit (hdigits d hd)
  have hvalue : valueInRadix 10 (digits.map fun d => d.toNat - '0'.toNat) =
      Nat.ofDigitChars 10 digits 0 := by
    rw [valueInRadix, List.foldl_map, Nat.ofDigitChars_eq_foldl]
  have hinteger : NumberLiteral.integerValue 10 (digits.filterMap (digitInRadix? 10)) =
      (NumberLiteral.ofNat (Nat.ofDigitChars 10 digits 0)).value := by
    rw [hvalues, NumberLiteral.integerValue, hvalue, if_neg (by simpa using hne)]
    rfl
  rw [readDecimal_row (fun d hd => ?_) hrest, hinteger]
  · rfl
  · rw [NumberLiteral.isDigitOrUnderscore, digitInRadix?_of_isDigit (hdigits d hd)]
    simp

/-- A digit is no other character. -/
theorem ne_of_isDigit {c x : Char} (h : c.isDigit = true) (hx : x.isDigit = false) : c ≠ x := by
  rintro rfl
  rw [h] at hx
  cases hx

/-- No mark is a digit. -/
theorem isDigit_of_punctuation? {c : Char} {mark : Lexeme} (h : Piece.punctuation? c = some mark) :
    c.isDigit = false := by
  simp only [Piece.punctuation?] at h
  split at h <;> cases h <;> rfl

/-- A digit opens a number. -/
theorem at_of_isDigit {c : Char} (h : c.isDigit = true) (rest : List Char) :
    Piece.at c rest = Piece.number (c :: rest) := by
  have hmark : Piece.punctuation? c = none := by
    cases hp : Piece.punctuation? c with
    | none => rfl
    | some mark =>
      rw [isDigit_of_punctuation? hp] at h
      cases h
  have hne : ∀ x : Char, x.isDigit = false → c ≠ x := fun x hx => ne_of_isDigit h hx
  unfold Piece.at
  rw [hmark, h]
  simp [hne ' ' rfl, hne '\t' rfl, hne '\x0c' rfl, hne '\n' rfl, hne '\r' rfl, hne '#' rfl,
    hne '\\' rfl, hne ':' rfl, hne '.' rfl, hne '-' rfl]

/-- A digit announces no radix. -/
theorem announcedRadix?_of_isDigit {d : Char} (h : d.isDigit = true) :
    NumberLiteral.announcedRadix? d = none := by
  have hletter : ∀ x : Char, x.isDigit = false → x.toUpper.isDigit = false →
      isLetter x d = false := by
    intro x hx hcapital
    rw [isLetter, beq_eq_false_iff_ne.2 (ne_of_isDigit h hx),
      beq_eq_false_iff_ne.2 (ne_of_isDigit h hcapital)]
    rfl
  rw [NumberLiteral.announcedRadix?, hletter 'x' rfl rfl, hletter 'o' rfl rfl, hletter 'b' rfl rfl]
  rfl

/-- A whole number is read as its literal. -/
theorem readsAs_integer (n : Nat) : ReadsAs (Nat.toDigits 10 n) (.number (.ofNat n)) := by
  have hdigits : ∀ d ∈ Nat.toDigits 10 n, d.isDigit = true :=
    fun d hd => Nat.isDigit_of_mem_toDigits (by decide) (by decide) hd
  have hvalue := @Nat.ofDigitChars_ten_toDigits n
  cases hn : Nat.toDigits 10 n with
  | nil => exact absurd hn Nat.toDigits_ne_nil
  | cons c more =>
    rw [hn] at hdigits hvalue
    refine ⟨c, more, rfl, fun rest hrest => ?_⟩
    have hread := readDecimal_digits hdigits (List.cons_ne_nil c more) hrest
    have hradix : NumberLiteral.read (c :: (more ++ rest)) =
        NumberLiteral.readDecimal (c :: (more ++ rest)) := by
      refine NumberLiteral.read_eq_readDecimal fun mark after heq => ?_
      have hmark := (List.cons.inj heq).2
      cases more with
      | nil => rw [hrest mark (by simp_all)]; rfl
      | cons d more =>
        rw [← (List.cons.inj hmark).1]
        exact announcedRadix?_of_isDigit (hdigits d (by simp))
    rw [List.cons_append, hvalue] at hread
    rw [at_of_isDigit (hdigits c (by simp)), Piece.number, hradix, hread]
    rfl

/-- A word apart is read as its lexeme. -/
theorem Word.readsAs {w : Word} (h : w.IsSpelled) : ReadsAs w.spelling w.lexeme := by
  cases w with
  | name n => exact n.readsAs
  | integer n => exact readsAs_integer n
  | keyword k => exact readsAs_keyword k
  | symbol op =>
    rw [IsSpelled, spelling] at h
    rw [spelling, lexeme]
    cases hfind : operatorSpellings.find? (·.2 == op) with
    | none => simp [hfind] at h
    | some x =>
      have hop := List.find?_some (p := fun x : List Char × Operator => x.2 == op) hfind
      rw [← eq_of_beq hop]
      exact readsAs_symbol x (List.mem_of_find?_eq_some hfind)
  | opening => exact ⟨_, _, rfl, fun _ _ => rfl⟩
  | closing => exact ⟨_, _, rfl, fun _ _ => rfl⟩

end Words

/-! ## Lines of words -/

namespace Layout

variable {l : Layout}

/-- A lexeme on a line that is not indented is one more token of the line. -/
theorem absorb_lexeme (hindents : l.indents = []) (hleading : l.leading = none ∨ l.leading = some 0)
    (c : Char) (start length : Nat) (x : Lexeme) :
    l.absorb c start length (.lexeme x) =
      { tokens := ⟨⟨start, length⟩, x⟩ :: l.tokens
        brackets := bracketsAfter l.brackets x
        indents := []
        leading := none
        lineHasTokens := true } := by
  obtain ⟨tokens, brackets, indents, leading, lineHasTokens⟩ := l
  dsimp only at hindents hleading
  subst hindents
  rcases hleading with rfl | rfl <;> rfl

/-- A line of words has their lexemes. -/
theorem readFrom_spelled {words : List Word} (hwords : ∀ w ∈ words, w.IsSpelled)
    (hne : words ≠ []) (hindents : l.indents = [])
    (hleading : l.leading = none ∨ l.leading = some 0) (start : Nat) :
    (l.readFrom start (spelled words)).tokens.map Token.lexeme =
      .endOfStream :: .newLine .implied ::
        ((words.map Word.lexeme).reverse ++ l.tokens.map Token.lexeme) := by
  induction words generalizing l start with
  | nil => exact absurd rfl hne
  | cons w words ih =>
    obtain ⟨c, more, hspelling, hread⟩ := Word.readsAs (hwords w (List.mem_cons_self ..))
    cases words with
    | nil =>
      have hpiece := hread [] nofun
      have hline : spelled [w] = c :: (more ++ []) := by simp [spelled, hspelling]
      rw [hline, readFrom_piece hpiece, absorb_lexeme hindents hleading, readFrom]
      rfl
    | cons w' words =>
      have hpiece := hread (' ' :: spelled (w' :: words)) (by simp [IsApart])
      have hline : spelled (w :: w' :: words) = c :: (more ++ ' ' :: spelled (w' :: words)) := by
        simp [spelled, hspelling]
      have hblank : Piece.at ' ' (spelled (w' :: words)) = ⟨.blank, 0⟩ := rfl
      rw [hline, readFrom_piece hpiece, absorb_lexeme hindents hleading, readFrom, hblank]
      have htail := fun w hw => hwords w (List.mem_cons_of_mem _ hw)
      refine (ih htail (List.cons_ne_nil _ _) rfl (.inl rfl) _).trans ?_
      simp [absorb]

end Layout

/-- Words with blanks between them are read as their lexemes, the end of the line and the end of the
text. -/
theorem Tokens.lexemes_spelled {words : List Word} (hwords : ∀ w ∈ words, w.IsSpelled)
    (hne : words ≠ []) :
    (ofText (spelled words)).map Token.lexeme =
      words.map Word.lexeme ++ [.newLine .implied, .endOfStream] := by
  have hread := @Layout.readFrom_spelled .initial _ hwords hne rfl (.inr rfl) 0
  rw [ofText, List.map_reverse, hread]
  simp [Layout.initial]

end TypeProbe
