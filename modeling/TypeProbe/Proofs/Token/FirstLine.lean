import Mathlib.Data.List.TakeWhile
import Mathlib.Data.List.Find
import TypeProbe.Proofs.Token.Coverage

/-!
# What a piece depends on

A piece of a text that is neither a string nor a joined line is decided by the characters up to the
next line end (`firstLine`): tests for some characters at the front, and stretches of characters of
one class, come out the same on the first line alone. `Piece.plain_or_opensString` puts this
together for all pieces but line ends and joined lines: either the piece is plain, and then the
first line decides what it is, or it opens a string, and then what comes behind the quote decides.
Inside of a string, each step depends on the first line only, unless it meets a joined line
(`Quoting.step_firstLine`).
-/

namespace TypeProbe

/-- The characters of a text before its first line end. -/
def firstLine (text : List Char) : List Char := text.takeWhile fun d => d != '\n' && d != '\r'

section FirstLine

variable {c : Char} {line pattern text : List Char} {n : Nat}

/-- The test of `firstLine` is that for line ends. -/
theorem ne_and_ne_iff : (c != '\n' && c != '\r') = true ↔ ¬ IsLineEnd c := by
  simp [IsLineEnd]

@[simp] theorem firstLine_nil : firstLine [] = [] := rfl

/-- A character that is no line end is on the first line. -/
theorem firstLine_cons (h : ¬ IsLineEnd c) (text : List Char) :
    firstLine (c :: text) = c :: firstLine text := List.takeWhile_cons_of_pos (ne_and_ne_iff.2 h)

/-- A line end ends the first line. -/
theorem firstLine_cons_of_isLineEnd (h : IsLineEnd c) (text : List Char) :
    firstLine (c :: text) = [] :=
  List.takeWhile_cons_of_neg fun hc => ne_and_ne_iff.1 hc h

/-- Characters that are no line ends are on the first line. -/
theorem firstLine_append (h : ∀ d ∈ line, ¬ IsLineEnd d) (text : List Char) :
    firstLine (line ++ text) = line ++ firstLine text :=
  List.takeWhile_append_of_pos fun d hd => ne_and_ne_iff.2 (h d hd)

/-- The first line stands at the front. -/
theorem firstLine_isPrefix (text : List Char) : firstLine text <+: text :=
  List.takeWhile_prefix _

/-- The first line holds no line end. -/
theorem not_isLineEnd_of_mem_firstLine (h : c ∈ firstLine text) : ¬ IsLineEnd c :=
  ne_and_ne_iff.1 (List.mem_takeWhile_imp (p := fun d => d != '\n' && d != '\r') h)

/-- Characters without a line end stand at the front of a text if and only if they stand at the
front of its first line. -/
theorem isPrefix_firstLine_iff (h : ∀ d ∈ pattern, ¬ IsLineEnd d) :
    pattern <+: firstLine text ↔ pattern <+: text := by
  refine ⟨fun hline => hline.trans (firstLine_isPrefix text), ?_⟩
  rintro ⟨after, rfl⟩
  rw [firstLine_append h]
  exact List.prefix_append pattern _

/-- The same of a test for the characters at the front. -/
theorem take_firstLine_eq_iff (h : ∀ d ∈ pattern, ¬ IsLineEnd d) (hn : pattern.length = n) :
    (firstLine text).take n = pattern ↔ text.take n = pattern := by
  have hprefix := @isPrefix_firstLine_iff pattern text h
  rw [List.prefix_iff_eq_take, List.prefix_iff_eq_take, hn] at hprefix
  rw [eq_comm, hprefix, eq_comm]

/-- The same of a test for the first character. -/
theorem head?_firstLine_eq_iff (h : ¬ IsLineEnd c) :
    (firstLine text).head? = some c ↔ text.head? = some c := by
  cases text with
  | nil => rfl
  | cons d text =>
    by_cases hd : IsLineEnd d
    · rw [firstLine_cons_of_isLineEnd hd]
      refine ⟨nofun, fun hhead => absurd hd ?_⟩
      rw [Option.some.inj hhead]
      exact h
    · rw [firstLine_cons hd]
      rfl

/-- Characters of a class without line ends are taken from the first line. -/
theorem takeWhile_firstLine {p : Char → Bool} (hp : ∀ d, IsLineEnd d → p d = false)
    (text : List Char) : (firstLine text).takeWhile p = text.takeWhile p := by
  induction text with
  | nil => rfl
  | cons d text ih =>
    by_cases hd : IsLineEnd d
    · rw [firstLine_cons_of_isLineEnd hd, List.takeWhile_cons_of_neg (by simp [hp d hd])]
      rfl
    · rw [firstLine_cons hd, List.takeWhile_cons, List.takeWhile_cons, ih]

/-- Characters of a class without line ends are at most those of the first line. -/
theorem length_takeWhile_le {p : Char → Bool} (hp : ∀ d, IsLineEnd d → p d = false)
    (text : List Char) : (text.takeWhile p).length ≤ (firstLine text).length := by
  rw [← takeWhile_firstLine hp]
  exact (List.takeWhile_prefix p).length_le

/-- Characters as far as the first line reaches are no line ends. -/
theorem not_isLineEnd_of_mem_take (hn : n ≤ (firstLine text).length) (h : c ∈ text.take n) :
    ¬ IsLineEnd c := by
  have htake : (firstLine text).take n = text.take n := by
    rw [List.prefix_iff_eq_take.1 (firstLine_isPrefix text), List.take_take, Nat.min_eq_left hn]
  rw [← htake] at h
  exact not_isLineEnd_of_mem_firstLine (List.mem_of_mem_take h)

/-- What is left of the first line is the first line of what is left. -/
theorem drop_firstLine (h : n ≤ (firstLine text).length) :
    (firstLine text).drop n = firstLine (text.drop n) := by
  induction n generalizing text with
  | zero => rfl
  | succ n ih =>
    cases text with
    | nil => rfl
    | cons d text =>
      by_cases hd : IsLineEnd d
      · rw [firstLine_cons_of_isLineEnd hd, List.length_nil] at h
        omega
      · rw [firstLine_cons hd, List.length_cons] at h
        rw [firstLine_cons hd, List.drop_succ_cons, List.drop_succ_cons]
        exact ih (Nat.le_of_succ_le_succ h)

end FirstLine

/-! ## Numbers -/

namespace NumberLiteral

variable {c : Char} {text : List Char}

/-- No line end stands among digits. -/
theorem isDigitOrUnderscore_of_isLineEnd (radix : Nat) (h : IsLineEnd c) :
    isDigitOrUnderscore radix c = false := by
  rcases h with rfl | rfl <;> rfl

/-- Whether a digit comes first shows on the first line. -/
theorem startsDigit_firstLine (text : List Char) :
    ((firstLine text).head?.map Char.isDigit).getD false =
      (text.head?.map Char.isDigit).getD false := by
  cases text with
  | nil => rfl
  | cons d text =>
    by_cases hd : IsLineEnd d
    · rw [firstLine_cons_of_isLineEnd hd]
      rcases hd with rfl | rfl <;> rfl
    · rw [firstLine_cons hd]
      rfl

/-- The sign of a power of ten, or none. -/
def signSpelling : List Char → List Char
  | '+' :: _ => ['+']
  | '-' :: _ => ['-']
  | _ => []

/-- A power of ten is a mark, a sign and digits, of which the first is no underscore. -/
theorem exponentSpelling_cons (mark : Char) (rest : List Char) :
    exponentSpelling (mark :: rest) =
      if isLetter 'e' mark ∧
          ((rest.drop (signSpelling rest).length).head?.map Char.isDigit).getD false = true then
        mark :: (signSpelling rest ++
          (rest.drop (signSpelling rest).length).takeWhile (isDigitOrUnderscore 10))
      else [] := by
  by_cases hmark : isLetter 'e' mark = true
  · cases rest with
    | nil => simp [exponentSpelling, signSpelling]
    | cons s rest =>
      by_cases hplus : s = '+'
      · subst hplus
        cases rest <;> simp [exponentSpelling, signSpelling, hmark]
      · by_cases hminus : s = '-'
        · subst hminus
          cases rest <;> simp [exponentSpelling, signSpelling, hmark]
        · simp [exponentSpelling, signSpelling, hmark, hplus, hminus]
  · simp [exponentSpelling, hmark]

/-- The sign of a power of ten is on the first line. -/
theorem signSpelling_firstLine (text : List Char) :
    signSpelling (firstLine text) = signSpelling text ∧
      (signSpelling text).length ≤ (firstLine text).length := by
  cases text with
  | nil => exact ⟨rfl, Nat.le_refl _⟩
  | cons d text =>
    by_cases hd : IsLineEnd d
    · rw [firstLine_cons_of_isLineEnd hd]
      rcases hd with rfl | rfl <;> exact ⟨rfl, Nat.le_refl _⟩
    · rw [firstLine_cons hd]
      unfold signSpelling
      split <;> simp_all

/-- A power of ten is on the first line. -/
theorem exponentSpelling_firstLine (text : List Char) :
    exponentSpelling (firstLine text) = exponentSpelling text ∧
      (exponentSpelling text).length ≤ (firstLine text).length := by
  cases text with
  | nil => exact ⟨rfl, Nat.le_refl _⟩
  | cons mark rest =>
    by_cases hmark : IsLineEnd mark
    · rw [firstLine_cons_of_isLineEnd hmark]
      rcases hmark with rfl | rfl <;> exact ⟨rfl, Nat.le_refl _⟩
    · obtain ⟨hsign, hlength⟩ := signSpelling_firstLine rest
      have hp := fun d => @isDigitOrUnderscore_of_isLineEnd d 10
      have hdigits := length_takeWhile_le hp (rest.drop (signSpelling rest).length)
      rw [← drop_firstLine hlength, List.length_drop] at hdigits
      rw [firstLine_cons hmark, exponentSpelling_cons, exponentSpelling_cons, hsign,
        drop_firstLine hlength, startsDigit_firstLine, takeWhile_firstLine hp]
      refine ⟨rfl, ?_⟩
      split
      · simp only [List.length_cons, List.length_append]
        omega
      · exact Nat.zero_le _

/-- The mark of the imaginary unit is on the first line. -/
theorem startsImaginary_firstLine (text : List Char) :
    startsImaginary (firstLine text) = startsImaginary text := by
  cases text with
  | nil => rfl
  | cons d text =>
    by_cases hd : IsLineEnd d
    · rw [firstLine_cons_of_isLineEnd hd]
      rcases hd with rfl | rfl <;> rfl
    · rw [firstLine_cons hd]
      rfl

/-- The suffix of a number is on the first line if the number is. -/
theorem withSuffix_firstLine (value : NumberValue) (isInteger : Bool) {size : Nat}
    (h : size ≤ (firstLine text).length) :
    withSuffix value isInteger size (firstLine text) = withSuffix value isInteger size text ∧
      (withSuffix value isInteger size text).2 ≤ (firstLine text).length := by
  have hstarts := startsImaginary_firstLine (text.drop size)
  rw [← drop_firstLine h] at hstarts
  refine ⟨by simp only [withSuffix, hstarts], ?_⟩
  simp only [withSuffix]
  rw [← hstarts]
  split
  · -- The mark is one more character of the line.
    rename_i himaginary
    by_contra hlong
    rw [List.drop_eq_nil_of_le (by omega)] at himaginary
    cases himaginary
  · exact h

/-- The digits of a number in an announced radix are on the first line. -/
theorem readInRadix_firstLine (radix : Nat) (h : 2 ≤ (firstLine text).length) :
    readInRadix radix (firstLine text) = readInRadix radix text ∧
      (readInRadix radix text).2 ≤ (firstLine text).length := by
  have hp := fun d => @isDigitOrUnderscore_of_isLineEnd d radix
  have hdigits := length_takeWhile_le hp (text.drop 2)
  rw [← drop_firstLine h, List.length_drop] at hdigits
  simp only [readInRadix]
  rw [drop_firstLine h, takeWhile_firstLine hp]
  exact withSuffix_firstLine _ _ (by omega)

/-- The point of a decimal number and the digits behind it, or nothing. -/
def fractionSpelling : List Char → List Char
  | '.' :: rest => '.' :: rest.takeWhile (isDigitOrUnderscore 10)
  | _ => []

/-- A point and its digits are on the first line. -/
theorem fractionSpelling_firstLine (text : List Char) :
    fractionSpelling (firstLine text) = fractionSpelling text ∧
      (fractionSpelling text).length ≤ (firstLine text).length := by
  have hp := fun d => @isDigitOrUnderscore_of_isLineEnd d 10
  cases text with
  | nil => exact ⟨rfl, Nat.le_refl _⟩
  | cons d text =>
    by_cases hd : IsLineEnd d
    · rw [firstLine_cons_of_isLineEnd hd]
      rcases hd with rfl | rfl <;> exact ⟨rfl, Nat.le_refl _⟩
    · rw [firstLine_cons hd]
      unfold fractionSpelling
      by_cases hpoint : d = '.'
      · subst hpoint
        simpa [takeWhile_firstLine hp] using length_takeWhile_le hp text
      · simp [hpoint]

/-- A decimal number is on the first line. -/
theorem readDecimal_firstLine (text : List Char) :
    readDecimal (firstLine text) = readDecimal text ∧
      (readDecimal text).2 ≤ (firstLine text).length := by
  have hp := fun d => @isDigitOrUnderscore_of_isLineEnd d 10
  have hwhole := length_takeWhile_le hp text
  have hread : ∀ text, readDecimal text =
      let whole := text.takeWhile (isDigitOrUnderscore 10)
      let part := fractionSpelling (text.drop whole.length)
      let power := exponentSpelling ((text.drop whole.length).drop part.length)
      let size := whole.length + part.length + power.length
      if part.isEmpty && power.isEmpty then
        withSuffix (integerValue 10 (whole.filterMap (digitInRadix? 10))) true size text
      else
        withSuffix (.float ((Binary64.parse? ((whole ++ part ++ power).filter (· != '_'))).getD
          .nan)) false size text := fun text => rfl
  obtain ⟨hpart, hpartLength⟩ :=
    fractionSpelling_firstLine (text.drop (text.takeWhile (isDigitOrUnderscore 10)).length)
  simp only [hread]
  rw [takeWhile_firstLine hp, drop_firstLine hwhole, hpart, drop_firstLine hpartLength]
  -- All three parts are on the first line, and so is the end of the last one.
  generalize text.takeWhile (isDigitOrUnderscore 10) = whole at hwhole hpartLength ⊢
  generalize hafter : text.drop whole.length = after at hpartLength ⊢
  generalize fractionSpelling after = part at hpartLength ⊢
  obtain ⟨hpower, hpowerLength⟩ := exponentSpelling_firstLine (after.drop part.length)
  have hline : (firstLine after).length + whole.length = (firstLine text).length := by
    rw [← hafter, ← drop_firstLine hwhole, List.length_drop]
    omega
  rw [← drop_firstLine hpartLength, List.length_drop] at hpowerLength
  rw [hpower]
  generalize exponentSpelling (after.drop part.length) = power at hpowerLength ⊢
  have hsize : whole.length + part.length + power.length ≤ (firstLine text).length := by omega
  split <;> exact withSuffix_firstLine _ _ hsize

/-- A number without an announced radix is decimal. -/
theorem read_eq_readDecimal
    (h : ∀ mark rest, text = '0' :: mark :: rest → announcedRadix? mark = none) :
    read text = readDecimal text := by
  unfold read
  split
  · rw [h _ _ rfl]
  · rfl

/-- A number is on the first line. -/
theorem read_firstLine (text : List Char) :
    read (firstLine text) = read text ∧ (read text).2 ≤ (firstLine text).length := by
  by_cases hradix : ∃ mark rest, text = '0' :: mark :: rest ∧ announcedRadix? mark ≠ none
  · obtain ⟨mark, rest, rfl, hmark⟩ := hradix
    obtain ⟨radix, hradix⟩ := Option.ne_none_iff_exists'.1 hmark
    have hend : ¬ IsLineEnd mark := by
      rintro (rfl | rfl) <;> exact hmark rfl
    have hline : firstLine ('0' :: mark :: rest) = '0' :: mark :: firstLine rest := by
      rw [firstLine_cons (by simp [IsLineEnd]), firstLine_cons hend]
    have hread := @readInRadix_firstLine ('0' :: mark :: rest) radix (by simp [hline])
    rw [hline] at hread ⊢
    simpa only [read, hradix] using hread
  · push Not at hradix
    have hdecimal := readDecimal_firstLine text
    rwa [read_eq_readDecimal hradix, read_eq_readDecimal]
    rintro mark rest hline
    obtain ⟨after, hafter⟩ := firstLine_isPrefix text
    rw [hline] at hafter
    exact hradix mark _ hafter.symm

end NumberLiteral

/-! ## Pieces -/

namespace Piece

variable {c : Char} {rest : List Char}

/-- A string whose opening quote comes after a word of letters. -/
def ofString (word : List Char) (letters : List StringFlag) (quote : Char) (after : List Char) :
    SizedPiece :=
  let (literal, size) := StringLiteral.read letters quote (quote :: after)
  ⟨.lexeme (.string literal), word.length + size - 1⟩

/-- A string starts with `c` and goes on with what comes behind its opening quote. -/
structure OpensString (c : Char) (rest word : List Char) (letters : List StringFlag) (quote : Char)
    (after : List Char) : Prop where
  /-- The word and the quote stand at the front. -/
  front : c :: rest = word ++ quote :: after
  /-- The quote is one of the two. -/
  isQuote : quote = '"' ∨ quote = '\''
  /-- The word is on one line. -/
  onLine : ∀ d ∈ word, ¬ IsLineEnd d
  /-- The letters of the word are flags. -/
  areLetters : ∀ f ∈ letters, f ∈ [StringFlag.raw, .unicode, .bytes, .format]
  /-- Whatever comes behind the quote is read as the rest of a string. -/
  reads : ∀ rest' after', c :: rest' = word ++ quote :: after' →
    Piece.at c rest' = ofString word letters quote after'

/-- The flags of letters are four. -/
theorem mem_of_letterFlags? {word : List Char} {letters : List StringFlag}
    (h : StringLiteral.letterFlags? word = some letters) :
    ∀ f ∈ letters, f ∈ [StringFlag.raw, .unicode, .bytes, .format] := by
  have hflag : ∀ f, some f ∈ word.map StringLiteral.letterFlag? →
      f ∈ [StringFlag.raw, .unicode, .bytes, .format] := by
    intro f hf
    obtain ⟨d, -, hd⟩ := List.mem_map.1 hf
    simp only [StringLiteral.letterFlag?] at hd
    split_ifs at hd <;> cases hd <;> simp
  simp only [StringLiteral.letterFlags?] at h
  intro f hf
  split at h
  · rename_i hword
    obtain rfl := Option.some.inj h
    rw [List.mem_singleton.1 hf]
    exact hflag _ (hword ▸ List.mem_singleton_self _)
  · rename_i g g' hword
    split_ifs at h with hclash hraw
    obtain rfl := Option.some.inj h
    refine hflag f ?_
    rw [hword]
    simpa using hf
  · cases h

/-- A piece that is neither a string nor the end of a line. -/
def IsPlain : Piece → Prop
  | .lineEnd _ | .lexeme (.string _) => False
  | _ => True

/-- Two readings of a plain piece that has its end on a line of the given length agree. -/
def Agree (length : Nat) (s s' : SizedPiece) : Prop :=
  s = s' ∧ s'.more ≤ length ∧ s'.piece.IsPlain

/-- A plain piece is what it would be if its first line were the whole text. -/
def Plain (c : Char) (rest : List Char) : Prop :=
  Agree (firstLine rest).length (Piece.at c (firstLine rest)) (Piece.at c rest)

/-- A plain piece agrees with itself. -/
theorem Agree.refl {length more : Nat} {piece : Piece} (hmore : more ≤ length)
    (hpiece : piece.IsPlain) : Agree length ⟨piece, more⟩ ⟨piece, more⟩ := ⟨rfl, hmore, hpiece⟩

/-- Marks are plain. -/
theorem isPlain_of_punctuation? {mark : Lexeme} (h : punctuation? c = some mark) :
    (Piece.lexeme mark).IsPlain := by
  simp only [punctuation?] at h
  split at h <;> cases h <;> trivial

/-- Choices by the same test agree if what they choose from does. -/
theorem Agree.ite {length : Nat} {P : Prop} [Decidable P] {s t s' t' : SizedPiece}
    (hs : P → Agree length s s') (ht : ¬ P → Agree length t t') :
    Agree length (if P then s else t) (if P then s' else t') := by
  by_cases h : P
  · rw [if_pos h, if_pos h]
    exact hs h
  · rw [if_neg h, if_neg h]
    exact ht h

/-- No spelling of an operator has a line end. -/
theorem not_isLineEnd_of_mem_operatorSpellings {x : List Char × Operator}
    (hx : x ∈ operatorSpellings) : ∀ d ∈ x.1, ¬ IsLineEnd d := by
  have hall : (operatorSpellings.all fun x => x.1.all fun d => d != '\n' && d != '\r') = true := rfl
  intro d hd
  exact ne_and_ne_iff.1 (List.all_eq_true.1 (List.all_eq_true.1 hall x hx) d hd)

/-- An operator is on the first line. -/
theorem operator?_firstLine (text : List Char) :
    operator? (firstLine text) = operator? text ∧
      ∀ op size, operator? text = some (op, size) → size ≤ (firstLine text).length := by
  have hprefix : ∀ x ∈ operatorSpellings,
      (fun x : List Char × Operator => x.1.isPrefixOf (firstLine text)) x =
        (fun x : List Char × Operator => x.1.isPrefixOf text) x := by
    intro x hx
    rw [Bool.eq_iff_iff, List.isPrefixOf_iff_prefix, List.isPrefixOf_iff_prefix]
    exact isPrefix_firstLine_iff (not_isLineEnd_of_mem_operatorSpellings hx)
  refine ⟨congrArg (Option.map _) (List.find?_congr hprefix), fun op size h => ?_⟩
  obtain ⟨x, hx, heq⟩ := Option.map_eq_some_iff.1 h
  obtain ⟨rfl, rfl⟩ := Prod.mk.inj heq
  rw [← List.find?_congr hprefix] at hx
  have hspelling := List.find?_some
    (p := fun x : List Char × Operator => x.1.isPrefixOf (firstLine text)) hx
  exact (List.isPrefixOf_iff_prefix.1 hspelling).length_le

/-- The characters that spellings of operators start with. -/
def operatorHeads : List Char :=
  ['*', '/', '<', '>', '=', '!', '+', '-', '%', '&', '|', '^', '@', '~']

/-- No operator starts with another character. -/
theorem operator?_eq_none (rest : List Char) (h : ∀ d ∈ operatorHeads, c ≠ d) :
    operator? (c :: rest) = none := by
  have hheads : (operatorSpellings.all fun x => x.1.head?.any operatorHeads.contains) = true := rfl
  refine congrArg (Option.map _) (List.find?_eq_none.2 fun x hx hspelling => ?_)
  have hhead := List.all_eq_true.1 hheads x hx
  dsimp only at hspelling
  generalize x.1 = spelling at hhead hspelling
  cases spelling with
  | nil => cases hhead
  | cons d tail =>
    rw [List.isPrefixOf_cons_cons, Bool.and_eq_true, beq_iff_eq] at hspelling
    exact h d (List.contains_iff_mem.1 hhead) hspelling.1.symm

/-- A quote opens a string. -/
theorem at_of_quote (h : c = '"' ∨ c = '\'') (rest : List Char) :
    Piece.at c rest = ofString [] [] c rest := by
  rcases h with rfl | rfl <;> simp [Piece.at, punctuation?, ofString]

/-- A letter is no digit. -/
theorem isDigit_of_startsWord (h : Letter.startsWord c = true) : c.isDigit = false := by
  rcases Bool.or_eq_true_iff.1 h with hunderscore | h
  · rw [beq_iff_eq.1 hunderscore]
    rfl
  by_contra hdigit
  obtain ⟨hlow, hhigh⟩ := Bool.and_eq_true_iff.1 (Bool.eq_true_of_not_eq_false hdigit)
  have hhigh := UInt32.le_iff_toNat_le.1 (of_decide_eq_true hhigh)
  have hnine : '9'.val.toNat = 57 := rfl
  have hbelow : c.toNat < 0x80 := by
    show c.val.toNat < 0x80
    omega
  rw [Letter.isAlphabetic, if_pos hbelow] at h
  rcases Bool.or_eq_true_iff.1 h with hupper | hlower
  · have hfirst := UInt32.le_iff_toNat_le.1 (of_decide_eq_true hupper).1
    have hA : 'A'.val.toNat = 65 := rfl
    omega
  · have hfirst := UInt32.le_iff_toNat_le.1 (of_decide_eq_true (Bool.and_eq_true_iff.1 hlower).1)
    have ha : 'a'.val.toNat = 97 := rfl
    omega

/-- No letter is a mark. -/
theorem startsWord_of_punctuation? {mark : Lexeme} (h : punctuation? c = some mark) :
    Letter.startsWord c = false := by
  simp only [punctuation?] at h
  split at h <;> cases h <;> rfl

/-- A letter opens a word or a string. -/
theorem at_of_startsWord (h : Letter.startsWord c = true) (rest : List Char) :
    Piece.at c rest = wordOrString (c :: rest) := by
  have hne : ∀ x, Letter.startsWord x = false → c ≠ x := by
    rintro x hx rfl
    rw [h] at hx
    cases hx
  have hmark : punctuation? c = none := by
    cases hp : punctuation? c with
    | none => rfl
    | some mark =>
      rw [startsWord_of_punctuation? hp] at h
      cases h
  have hheads : (operatorHeads.all fun d => !Letter.startsWord d) = true := rfl
  have hoperator : operator? (c :: rest) = none := operator?_eq_none rest fun d hd =>
    hne d (by simpa using List.all_eq_true.1 hheads d hd)
  unfold Piece.at
  rw [hmark, hoperator, isDigit_of_startsWord h, h]
  simp [hne ' ' rfl, hne '\t' rfl, hne '\x0c' rfl, hne '\n' rfl, hne '\r' rfl, hne '#' rfl,
    hne '\\' rfl, hne ':' rfl, hne '.' rfl, hne '-' rfl, hne '"' rfl, hne '\'' rfl]

/-- The word of some letters that opens no string. -/
def ofWord (word : List Char) : SizedPiece :=
  match Keyword.ofSpelling? (String.ofList word) with
  | some k => ⟨.lexeme (.keyword k), word.length - 1⟩
  | none => ⟨.lexeme (.identifier (String.ofList word)), word.length - 1⟩

/-- Letters in front of a quote open a string if they are flags. -/
theorem wordOrString_of_quote {word after : List Char} {quote : Char} {letters : List StringFlag}
    (hword : ∀ d ∈ word, Letter.continuesWord d = true) (hquote : quote = '"' ∨ quote = '\'')
    (hletters : StringLiteral.letterFlags? word = some letters) :
    wordOrString (word ++ quote :: after) = ofString word letters quote after := by
  have htake : (word ++ quote :: after).takeWhile Letter.continuesWord = word := by
    rw [List.takeWhile_append_of_pos hword, List.takeWhile_cons_of_neg, List.append_nil]
    rcases hquote with rfl | rfl <;> decide
  simp only [wordOrString, htake, List.drop_left]
  rw [if_pos (by simpa using hquote), hletters]
  rfl

/-- Letters in front of anything else are a word. -/
theorem wordOrString_of_not_quote {text : List Char}
    (h : ∀ quote after, text.drop (text.takeWhile Letter.continuesWord).length = quote :: after →
      quote = '"' ∨ quote = '\'' →
      StringLiteral.letterFlags? (text.takeWhile Letter.continuesWord) = none) :
    wordOrString text = ofWord (text.takeWhile Letter.continuesWord) := by
  simp only [wordOrString]
  generalize text.takeWhile Letter.continuesWord = word at h ⊢
  cases hrest : text.drop word.length with
  | nil => rfl
  | cons quote after =>
    by_cases hquote : quote = '"' ∨ quote = '\''
    · simp only [h quote after hrest hquote, Option.map_none, ite_self]
      rfl
    · have htest : (decide (quote = '"') || decide (quote = '\'')) = false := by
        simpa using hquote
      simp only [htest, Bool.false_eq_true, if_false]
      rfl

/-- A letter opens a string, or a word on the first line. -/
theorem plain_or_opensString_of_startsWord (h : Letter.startsWord c = true) (rest : List Char) :
    Plain c rest ∨ ∃ word letters quote after, OpensString c rest word letters quote after := by
  have hp : ∀ d, IsLineEnd d → Letter.continuesWord d = false := by
    rintro d (rfl | rfl) <;> rfl
  have hc : ¬ IsLineEnd c := by
    rintro (rfl | rfl) <;> cases h
  have hline := firstLine_cons hc rest
  have hword := takeWhile_firstLine hp (c :: rest)
  have hlength := length_takeWhile_le hp (c :: rest)
  have hin : ∀ d ∈ (c :: rest).takeWhile Letter.continuesWord, Letter.continuesWord d = true :=
    fun d hd => List.mem_takeWhile_imp hd
  have hfront : (c :: rest).takeWhile Letter.continuesWord <+: c :: rest :=
    List.takeWhile_prefix _
  by_cases hopens : ∃ quote after letters,
      (c :: rest).drop ((c :: rest).takeWhile Letter.continuesWord).length = quote :: after ∧
        (quote = '"' ∨ quote = '\'') ∧
        StringLiteral.letterFlags? ((c :: rest).takeWhile Letter.continuesWord) = some letters
  · obtain ⟨quote, after, letters, hafter, hquote, hletters⟩ := hopens
    generalize (c :: rest).takeWhile Letter.continuesWord = word at *
    refine .inr ⟨word, letters, quote, after, ?_, hquote, fun d hd hend => ?_,
      mem_of_letterFlags? hletters, ?_⟩
    · rw [← hafter, ← List.prefix_iff_eq_append.1 hfront]
      simp
    · exact Bool.false_ne_true ((hp d hend).symm.trans (hin d hd))
    · intro rest' after' heq
      rw [at_of_startsWord h, heq]
      exact wordOrString_of_quote hin hquote hletters
  · have hnone : ∀ text, (∃ after, text ++ after = c :: rest) →
        text.takeWhile Letter.continuesWord = (c :: rest).takeWhile Letter.continuesWord →
        wordOrString text = ofWord ((c :: rest).takeWhile Letter.continuesWord) := by
      rintro text ⟨more, hmore⟩ htake
      rw [← htake]
      refine wordOrString_of_not_quote fun quote after hafter hquote => ?_
      rw [htake] at hafter ⊢
      by_contra hletters
      obtain ⟨letters, hletters⟩ := Option.ne_none_iff_exists'.1 hletters
      refine hopens ⟨quote, after ++ more, letters, ?_, hquote, hletters⟩
      have hlong : ((c :: rest).takeWhile Letter.continuesWord).length ≤ text.length := by
        rw [← htake]
        exact (List.takeWhile_prefix _).length_le
      rw [← hmore] at hafter hlong ⊢
      rw [List.drop_append_of_le_length hlong, hafter, List.cons_append]
    have hsame := hnone _ (firstLine_isPrefix (c :: rest)) hword
    rw [hline] at hsame
    rw [hline, List.length_cons] at hlength
    have hrest := hnone (c :: rest) ⟨[], List.append_nil _⟩ rfl
    refine .inl ⟨?_, ?_, ?_⟩
    · rw [at_of_startsWord h, at_of_startsWord h, hsame, hrest]
    · rw [at_of_startsWord h, hrest, ofWord]
      split <;> dsimp only <;> omega
    · rw [at_of_startsWord h, hrest, ofWord]
      split <;> trivial

/-- A piece that starts with neither a letter nor a quote, and is no line end and no backslash, is
on the first line. -/
theorem plain_of_ne (hend : ¬ IsLineEnd c) (hjoin : c ≠ '\\') (hquote : ¬ (c = '"' ∨ c = '\''))
    (hletter : Letter.startsWord c = false) (rest : List Char) : Plain c rest := by
  have hp : ∀ d, IsLineEnd d → (d != '\n' && d != '\r') = false := by
    rintro d (rfl | rfl) <;> rfl
  have hline := firstLine_cons hend rest
  have hnumber := NumberLiteral.read_firstLine (c :: rest)
  obtain ⟨hoperator, hsize⟩ := operator?_firstLine (c :: rest)
  rw [hline] at hnumber hoperator hsize
  have hhead : ∀ d, ¬ IsLineEnd d → ((firstLine rest).head? = some d ↔ rest.head? = some d) :=
    fun d hd => head?_firstLine_eq_iff hd
  have hshort : ∀ d, rest.head? = some d → ¬ IsLineEnd d → 1 ≤ (firstLine rest).length := by
    intro d hd hdend
    rw [← hhead d hdend] at hd
    cases hl : firstLine rest with
    | nil => rw [hl] at hd; cases hd
    | cons e line => simp
  have hdots : (firstLine rest).take 2 = ['.', '.'] ↔ rest.take 2 = ['.', '.'] :=
    take_firstLine_eq_iff (by simp [IsLineEnd]) rfl
  unfold Plain Piece.at
  refine .ite (fun _ => .refl (Nat.zero_le _) trivial) fun _ => ?_
  refine .ite (fun h => absurd (.inl h) hend) fun _ => ?_
  refine .ite (fun h => absurd (.inr h) hend) fun _ => ?_
  refine .ite (fun _ => ?_) fun _ => ?_
  · rw [takeWhile_firstLine hp]
    exact .refl (length_takeWhile_le hp rest) trivial
  simp only [hjoin, decide_false, Bool.false_and, Bool.false_eq_true, if_false]
  cases hmark : punctuation? c with
  | some mark => exact .refl (Nat.zero_le _) (isPlain_of_punctuation? hmark)
  | none =>
    -- Each test is one for characters of the first line.
    simp only [hhead '=' (by simp [IsLineEnd]), hhead '>' (by simp [IsLineEnd]), hdots,
      NumberLiteral.startsDigit_firstLine, hoperator, number, hnumber.1]
    have hmore : (NumberLiteral.read (c :: rest)).2 - 1 ≤ (firstLine rest).length := by
      have hsize := hnumber.2
      rw [List.length_cons] at hsize
      omega
    refine .ite (fun _ => ?_) fun _ => ?_
    · refine .ite (fun h => ?_) fun _ => .refl (Nat.zero_le _) trivial
      exact .refl (hshort '=' h (by simp [IsLineEnd])) trivial
    refine .ite (fun _ => ?_) fun _ => ?_
    · refine .ite (fun _ => .refl hmore trivial) fun _ => ?_
      refine .ite (fun h => .refl ?_ trivial) fun _ => .refl (Nat.zero_le _) trivial
      have htwo : min 2 (firstLine rest).length = 2 := by
        rw [← List.length_take, hdots.2 h]
        rfl
      omega
    refine .ite (fun h => .refl ?_ trivial) fun _ => ?_
    · have harrow : c = '-' ∧ rest.head? = some '>' := by simpa using h
      exact hshort '>' harrow.2 (by simp [IsLineEnd])
    refine .ite (fun _ => .refl hmore trivial) fun _ => ?_
    refine .ite (fun h => absurd (by simpa using h) hquote) fun _ => ?_
    cases hop : operator? (c :: rest) with
    | some found =>
      refine .refl ?_ trivial
      have hspelling := hsize found.1 found.2 hop
      rw [List.length_cons] at hspelling
      omega
    | none =>
      simp only [hletter, Bool.false_eq_true, if_false]
      exact .refl (Nat.zero_le _) trivial

/-- A backslash within a line is no token. -/
theorem at_backslash (h : ∀ d ∈ rest.head?, ¬ IsLineEnd d) :
    Piece.at '\\' rest = ⟨.lexeme .invalid, 0⟩ := by
  have hoperator : operator? ('\\' :: rest) = none :=
    operator?_eq_none rest (by simp [operatorHeads])
  have htwo : rest.take 2 ≠ ['\r', '\n'] := by
    intro htake
    cases rest with
    | nil => cases htake
    | cons d rest => exact h d rfl (.inr (List.cons.inj htake).1)
  have hfeed : rest.head? ≠ some '\n' := fun hd => h _ hd (.inl rfl)
  have hreturn : rest.head? ≠ some '\r' := fun hd => h _ hd (.inr rfl)
  have hletter : Letter.startsWord '\\' = false := rfl
  simp [Piece.at, punctuation?, hoperator, htwo, hfeed, hreturn, hletter]

/-- A piece that is no line end and starts with no backslash opens a string, or is on the first
line. -/
theorem plain_or_opensString (hend : ¬ IsLineEnd c) (hjoin : c ≠ '\\') (rest : List Char) :
    Plain c rest ∨ ∃ word letters quote after, OpensString c rest word letters quote after := by
  by_cases hquote : c = '"' ∨ c = '\''
  · refine .inr ⟨[], [], c, rest, rfl, hquote, nofun, nofun, fun rest' after' heq => ?_⟩
    obtain ⟨-, rfl⟩ := List.cons.inj heq
    exact at_of_quote hquote rest'
  · cases hletter : Letter.startsWord c with
    | true => exact plain_or_opensString_of_startsWord hletter rest
    | false => exact .inl (plain_of_ne hend hjoin hquote hletter rest)

/-- What is read of a text whose first line is the same. -/
theorem Plain.congr {rest' : List Char} (h : Plain c rest) (hend : ¬ IsLineEnd c)
    (hjoin : c ≠ '\\') (hline : firstLine rest' = firstLine rest) :
    Piece.at c rest' = Piece.at c rest := by
  rcases plain_or_opensString hend hjoin rest' with h' | ⟨word, letters, quote, after, hopens⟩
  · exact h'.1.symm.trans ((congrArg (Piece.at c) hline).trans h.1)
  · -- A string that is opened on the first line is opened in both texts.
    have hquote : ∀ d ∈ word ++ [quote], ¬ IsLineEnd d := by
      intro d hd
      rcases List.mem_append.1 hd with hd | hd
      · exact hopens.onLine d hd
      · obtain rfl := List.mem_singleton.1 hd
        rcases hopens.isQuote with rfl | rfl <;> simp [IsLineEnd]
    have hfront : word ++ [quote] <+: c :: rest := by
      rw [← isPrefix_firstLine_iff hquote, firstLine_cons hend, ← hline, ← firstLine_cons hend,
        isPrefix_firstLine_iff hquote, hopens.front]
      exact ⟨after, by simp⟩
    obtain ⟨after', hafter⟩ := hfront
    have hread := hopens.reads rest after' (by rw [← hafter]; simp)
    have hplain := h.2.2
    rw [hread] at hplain
    exact hplain.elim

end Piece

/-! ## The inside of a string -/

/-- The number of characters that a step takes after the first. -/
def StringStep.more : StringStep → Nat
  | .close more => more
  | .broken => 0
  | .part p => p.more

namespace Quoting

variable {q : Quoting} {c : Char} {rest : List Char}

/-- No line end is a digit. -/
theorem digitValue?_of_isLineEnd (h : IsLineEnd c) : digitValue? c = none := by
  rcases h with rfl | rfl <;> rfl

/-- The digits of an escape are on the first line, or there are too few. -/
theorem filterMap_take_firstLine (count : Nat) (rest : List Char) :
    count ≤ (firstLine rest).length ∧ (firstLine rest).take count = rest.take count ∨
      (((firstLine rest).take count).filterMap digitValue?).length < count ∧
        ((rest.take count).filterMap digitValue?).length < count := by
  induction count generalizing rest with
  | zero => exact .inl ⟨Nat.zero_le _, rfl⟩
  | succ count ih =>
    cases rest with
    | nil => exact .inr ⟨Nat.succ_pos count, Nat.succ_pos count⟩
    | cons d rest =>
      by_cases hd : IsLineEnd d
      · rw [firstLine_cons_of_isLineEnd hd, List.take_succ_cons,
          List.filterMap_cons_none (digitValue?_of_isLineEnd hd)]
        have hrest := List.length_filterMap_le digitValue? (rest.take count)
        rw [List.length_take] at hrest
        exact .inr ⟨Nat.succ_pos count, by omega⟩
      · rw [firstLine_cons hd, List.take_succ_cons, List.take_succ_cons, List.length_cons]
        refine (ih rest).imp (fun ⟨hcount, htake⟩ => ⟨by omega, by rw [htake]⟩) fun hfew => ?_
        cases hvalue : digitValue? d with
        | none =>
          rw [List.filterMap_cons_none hvalue, List.filterMap_cons_none hvalue]
          omega
        | some value =>
          rw [List.filterMap_cons_some hvalue, List.filterMap_cons_some hvalue, List.length_cons,
            List.length_cons]
          omega

/-- An escape by hexadecimal digits is on the first line. -/
theorem hexEscape_firstLine (count : Nat) (rest : List Char) :
    hexEscape count (firstLine rest) = hexEscape count rest ∧
      (hexEscape count rest).more ≤ (firstLine rest).length + 1 := by
  rcases filterMap_take_firstLine count rest with ⟨hcount, htake⟩ | ⟨hfew, hfew'⟩
  · refine ⟨by simp only [hexEscape, htake], ?_⟩
    simp only [hexEscape]
    split <;> dsimp only <;> omega
  · simp only [hexEscape, Nat.ne_of_lt hfew, Nat.ne_of_lt hfew', if_false]
    exact ⟨trivial, by omega⟩

/-- An escape by octal digits is on the first line. -/
theorem octalEscape_firstLine (first : Char) (rest : List Char) :
    octalEscape first (firstLine rest) = octalEscape first rest ∧
      (octalEscape first rest).more ≤ (firstLine rest).length + 1 := by
  have hp : ∀ d, IsLineEnd d → (digitInRadix? 8 d).isSome = false := by
    rintro d (rfl | rfl) <;> rfl
  have htake : ((firstLine rest).take 2).takeWhile (fun c => (digitInRadix? 8 c).isSome) =
      (rest.take 2).takeWhile (fun c => (digitInRadix? 8 c).isSome) := by
    rw [← List.take_takeWhile, ← List.take_takeWhile, takeWhile_firstLine hp]
  have hlength := length_takeWhile_le hp rest
  refine ⟨by simp only [octalEscape, htake], ?_⟩
  simp only [octalEscape, List.length_cons, ← List.take_takeWhile, List.length_take]
  omega

/-- An escape that starts with no line end is on the first line. -/
theorem escape_firstLine (hc : ¬ IsLineEnd c) (rest : List Char) :
    q.escape c (firstLine rest) = q.escape c rest ∧
      (q.escape c rest).more ≤ (firstLine rest).length + 1 := by
  unfold escape
  cases letterEscape? c with
  | some d => exact ⟨rfl, Nat.le_add_left 1 _⟩
  | none =>
    dsimp only
    rw [if_neg fun h => hc (.inl h), if_neg fun h => hc (.inl h), if_neg fun h => hc (.inr h),
      if_neg fun h => hc (.inr h)]
    split
    · exact octalEscape_firstLine c rest
    split
    · exact hexEscape_firstLine 2 rest
    split
    · exact hexEscape_firstLine 4 rest
    split
    · exact hexEscape_firstLine 8 rest
    · exact ⟨rfl, Nat.le_add_left 1 _⟩

/-- A step that meets no joined line stays on the first line. -/
theorem step_firstLine (hquote : ¬ IsLineEnd q.quote)
    (hc : c = '\\' → ∀ d ∈ rest.head?, ¬ IsLineEnd d) :
    q.step c (firstLine rest) = q.step c rest ∧ (q.step c rest).more ≤ (firstLine rest).length := by
  unfold step
  split
  · exact ⟨rfl, Nat.zero_le _⟩
  split
  · rename_i hescape
    cases rest with
    | nil => exact ⟨rfl, Nat.zero_le _⟩
    | cons next rest =>
      have hnext : ¬ IsLineEnd next := hc hescape next rfl
      rw [firstLine_cons hnext, List.length_cons]
      dsimp only
      split
      · exact ⟨rfl, Nat.le_add_left 1 _⟩
      · obtain ⟨hsame, hmore⟩ := @escape_firstLine q next hnext rest
        exact ⟨congrArg StringStep.part hsame, hmore⟩
  have hclose : (firstLine rest).take 2 = [q.quote, q.quote] ↔ rest.take 2 = [q.quote, q.quote] :=
    take_firstLine_eq_iff (by simpa using hquote) rfl
  split
  · split
    · exact ⟨rfl, Nat.zero_le _⟩
    · simp only [hclose]
      refine ⟨trivial, ?_⟩
      split
      · rename_i h
        have htwo : min 2 (firstLine rest).length = 2 := by
          rw [← List.length_take, hclose.2 h]
          rfl
        simp only [StringStep.more]
        omega
      · exact Nat.zero_le _
  · exact ⟨rfl, Nat.zero_le _⟩

end Quoting

/-- The part of a string read so far with one more part, whose first character is counted too. -/
def StringBody.add (sofar : StringBody) (part : Part) : StringBody :=
  { sofar with
    value := sofar.value ++ String.ofList part.value
    malformed := sofar.malformed || part.malformed
    size := sofar.size + 1 + part.more }

@[simp] theorem StringBody.toList_value_add (sofar : StringBody) (part : Part) :
    (sofar.add part).value.toList = sofar.value.toList ++ part.value := by
  simp [add]

namespace Quoting

variable {q : Quoting} {c : Char} {rest : List Char} {sofar : StringBody}

/-- A string ends at its quotes. -/
theorem readBody_of_close {more : Nat} (h : q.step c rest = .close more) :
    q.readBody sofar (c :: rest) = { sofar with size := sofar.size + 1 + more } := by
  rw [readBody, h]

/-- A string ends before a line end it may not hold. -/
theorem readBody_of_broken (h : q.step c rest = .broken) :
    q.readBody sofar (c :: rest) = { sofar with unterminated := true } := by
  rw [readBody, h]

/-- Reading goes on behind each part. -/
theorem readBody_of_part {part : Part} (h : q.step c rest = .part part) :
    q.readBody sofar (c :: rest) = q.readBody (sofar.add part) (rest.drop part.more) := by
  rw [readBody, h]
  rfl

/-- A step at the end of a line, which a string may hold or not. -/
theorem step_of_isLineEnd (hquote : ¬ IsLineEnd q.quote) (hc : IsLineEnd c) :
    q.step c rest = if q.triple then .part ⟨[c], false, 0⟩ else .broken := by
  have hends : (decide (c = '\n') || decide (c = '\r')) = true := by
    rcases hc with rfl | rfl <;> rfl
  have hne : c ≠ q.quote := fun h => hquote (h ▸ hc)
  have hback : c ≠ '\\' := by
    rcases hc with rfl | rfl <;> decide
  cases htriple : q.triple <;> simp [step, hends, htriple, hne, hback]

/-- Reading a string only adds to what has been read of it. -/
theorem readBody_extends (q : Quoting) (sofar : StringBody) (text : List Char) :
    (∃ value, (q.readBody sofar text).value.toList = sofar.value.toList ++ value) ∧
      ∃ n, (q.readBody sofar text).size = sofar.size + n := by
  fun_induction q.readBody sofar text with
  | case1 sofar => exact ⟨⟨[], (List.append_nil _).symm⟩, 0, rfl⟩
  | case2 sofar c rest more h =>
    exact ⟨⟨[], (List.append_nil _).symm⟩, 1 + more, Nat.add_assoc _ _ _⟩
  | case3 sofar c rest h => exact ⟨⟨[], (List.append_nil _).symm⟩, 0, rfl⟩
  | case4 sofar c rest part h ih =>
    obtain ⟨⟨value, hvalue⟩, n, hsize⟩ := ih
    refine ⟨⟨part.value ++ value, ?_⟩, 1 + part.more + n, ?_⟩
    · rw [hvalue]
      simp
    · rw [hsize]
      simp only [Nat.add_assoc]

end Quoting

namespace StringLiteral

/-- Whether three quotes open a string. -/
def isTriple (quote : Char) (after : List Char) : Bool :=
  (quote :: after).take 3 == [quote, quote, quote]

/-- How many quotes open a string. -/
def opening (quote : Char) (after : List Char) : Nat := if isTriple quote after then 3 else 1

/-- How a string is delimited and read. -/
def quoting (letters : List StringFlag) (quote : Char) (after : List Char) : Quoting :=
  ⟨quote, isTriple quote after, letters.contains .raw, letters.contains .bytes⟩

/-- What stands between the quotes of a string. -/
def body (letters : List StringFlag) (quote : Char) (after : List Char) : StringBody :=
  (quoting letters quote after).readBody ⟨"", false, false, opening quote after⟩
    ((quote :: after).drop (opening quote after))

/-- The flags of a string. -/
def flagsOf (letters : List StringFlag) (quote : Char) (triple unterminated : Bool) :
    Flags StringFlag :=
  let flags := (Flags.ofList letters).insert (if quote = '\'' then .singleQuote else .doubleQuote)
  let flags := if triple then flags.insert .triplicate else flags
  if unterminated then flags.insert .unterminated else flags

/-- A string is what stands between its quotes, and its flags. -/
theorem read_eq (letters : List StringFlag) (quote : Char) (after : List Char) :
    read letters quote (quote :: after) =
      (⟨flagsOf letters quote (isTriple quote after) (body letters quote after).unterminated,
        (body letters quote after).value, (body letters quote after).malformed⟩,
        (body letters quote after).size) := rfl

/-- The quotes that open a string are on the first line. -/
theorem isTriple_firstLine {quote : Char} (hquote : ¬ IsLineEnd quote) (after : List Char) :
    isTriple quote (firstLine after) = isTriple quote after ∧
      opening quote after ≤ (firstLine after).length + 1 := by
  have htake : (firstLine (quote :: after)).take 3 = [quote, quote, quote] ↔
      (quote :: after).take 3 = [quote, quote, quote] :=
    take_firstLine_eq_iff (by simpa using hquote) rfl
  rw [firstLine_cons hquote] at htake
  refine ⟨?_, ?_⟩
  · rw [isTriple, isTriple, Bool.eq_iff_iff, beq_iff_eq, beq_iff_eq, htake]
  · rw [opening]
    split
    · rename_i h
      have hthree := congrArg List.length (htake.2 (beq_iff_eq.1 h))
      rw [List.length_take, List.length_cons] at hthree
      simp only [List.length_cons, List.length_nil] at hthree
      omega
    · omega

end StringLiteral

end TypeProbe
