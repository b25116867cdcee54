import Mathlib.Data.Nat.Digits.Defs
import TypeProbe.Proofs.Token.Slices

/-!
# Whole numbers

A `Numeral` is a whole number as it is written: digits in one of four radices, in either case and
with underscores among them. It is read as one token, which has its value below `2 ^ 63` and none of
a whole number above (`Tokens.ofText_numeral`). The other way round, every number that is read
without a point, a power of ten and the mark of the imaginary unit is a numeral
(`NumberLiteral.numeral_of_read`).
-/

namespace TypeProbe

/-! ## Digits -/

/-- A character is the digit of a value, in either case. -/
def IsDigitOf (base value : Nat) (c : Char) : Prop :=
  value < base ∧ (c = Nat.digitChar value ∨ c = (Nat.digitChar value).toUpper)

instance (base value : Nat) (c : Char) : Decidable (IsDigitOf base value c) :=
  inferInstanceAs (Decidable (_ ∧ _))

/-- The digits up to sixteen have their values. -/
theorem digitValue?_eq_some_iff {c : Char} {value : Nat} :
    digitValue? c = some value ↔ IsDigitOf 16 value c := by
  constructor
  · intro h
    -- No character from `g` on is a digit, and those before it are tried one after the other.
    have hcode : ∀ code < 103, ∀ value ∈ digitValue? (Char.ofNat code),
        IsDigitOf 16 value (Char.ofNat code) := by decide
    have hlow : c.toNat < 103 := by
      by_contra hhigh
      have hnone : ∀ d : Char, d.toNat < 103 → ¬ c ≤ d := fun d hd hle =>
        hhigh (Nat.lt_of_le_of_lt hle hd)
      simp [digitValue?, hnone '9' (by decide), hnone 'f' (by decide), hnone 'F' (by decide)] at h
    have hvalue := hcode c.toNat hlow value
    rw [Char.ofNat_toNat] at hvalue
    exact hvalue h
  · rintro ⟨hvalue, hc⟩
    have hall : ∀ value < 16, digitValue? (Nat.digitChar value) = some value ∧
        digitValue? (Nat.digitChar value).toUpper = some value := by decide
    rcases hc with rfl | rfl
    · exact (hall value hvalue).1
    · exact (hall value hvalue).2

/-- The digits of a radix have their values. -/
theorem digitInRadix?_eq_some_iff {base value : Nat} {c : Char} (hbase : base ≤ 16) :
    digitInRadix? base c = some value ↔ IsDigitOf base value c := by
  rw [digitInRadix?, Option.filter_eq_some_iff, digitValue?_eq_some_iff, decide_eq_true_eq]
  constructor
  · rintro ⟨⟨-, hc⟩, hvalue⟩
    exact ⟨hvalue, hc⟩
  · rintro ⟨hvalue, hc⟩
    exact ⟨⟨Nat.lt_of_lt_of_le hvalue hbase, hc⟩, hvalue⟩

/-- A row of digits with the given values, and any underscores among them. -/
inductive DigitRow (base : Nat) : List Nat → List Char → Prop where
  /-- Nothing is left. -/
  | nil : DigitRow base [] []
  /-- A digit comes next. -/
  | digit {value : Nat} {c : Char} {values : List Nat} {row : List Char}
      (h : IsDigitOf base value c) (tail : DigitRow base values row) :
      DigitRow base (value :: values) (c :: row)
  /-- An underscore comes next. -/
  | underscore {values : List Nat} {row : List Char} (tail : DigitRow base values row) :
      DigitRow base values ('_' :: row)

/-- A row holds what may stand among digits, and has the values of its digits. -/
theorem digitRow_iff {base : Nat} {values : List Nat} {row : List Char} (hbase : base ≤ 16) :
    DigitRow base values row ↔
      (∀ c ∈ row, NumberLiteral.isDigitOrUnderscore base c = true) ∧
        row.filterMap (digitInRadix? base) = values := by
  have hunderscore : digitInRadix? base '_' = none := rfl
  constructor
  · intro h
    induction h with
    | nil => exact ⟨fun c hc => absurd hc List.not_mem_nil, rfl⟩
    | @digit value c values row hc tail ih =>
      have hdigit := (digitInRadix?_eq_some_iff hbase).2 hc
      refine ⟨List.forall_mem_cons.2 ⟨?_, ih.1⟩, ?_⟩
      · simp [NumberLiteral.isDigitOrUnderscore, hdigit]
      · rw [List.filterMap_cons_some hdigit, ih.2]
    | underscore tail ih =>
      refine ⟨List.forall_mem_cons.2 ⟨rfl, ih.1⟩, ?_⟩
      rw [List.filterMap_cons_none hunderscore, ih.2]
  · rintro ⟨hrow, rfl⟩
    induction row with
    | nil => exact .nil
    | cons c row ih =>
      obtain ⟨hc, htail⟩ := List.forall_mem_cons.1 hrow
      cases hdigit : digitInRadix? base c with
      | some value =>
        rw [List.filterMap_cons_some hdigit]
        exact .digit ((digitInRadix?_eq_some_iff hbase).1 hdigit) (ih htail)
      | none =>
        rw [NumberLiteral.isDigitOrUnderscore, hdigit] at hc
        obtain rfl : c = '_' := by simpa using hc
        rw [List.filterMap_cons_none hdigit]
        exact .underscore (ih htail)

/-- The value of some digits. -/
theorem valueInRadix_eq (base : Nat) (values : List Nat) :
    valueInRadix base values = Nat.ofDigits base values.reverse := by
  rw [Nat.ofDigits_eq_foldr, List.foldr_reverse, valueInRadix]
  refine congrArg (fun f => values.foldl f 0) ?_
  funext n d
  exact Nat.add_comm _ _

/-! ## Numerals -/

/-- The radices of whole numbers. -/
inductive Radix where
  | decimal
  | hexadecimal
  | octal
  | binary
deriving DecidableEq

namespace Radix

/-- How many digits there are. -/
def base : Radix → Nat
  | decimal => 10
  | hexadecimal => 16
  | octal => 8
  | binary => 2

/-- The letters that announce the radix behind a zero; nothing announces decimal digits. -/
def marks : Radix → List Char
  | decimal => []
  | hexadecimal => ['x', 'X']
  | octal => ['o', 'O']
  | binary => ['b', 'B']

/-- No radix has more than sixteen digits. -/
theorem base_le (radix : Radix) : radix.base ≤ 16 := by
  cases radix <;> decide

/-- The marks are what announces a radix. -/
theorem announcedRadix?_eq_some_iff {mark : Char} {base : Nat} :
    NumberLiteral.announcedRadix? mark = some base ↔
      ∃ radix : Radix, mark ∈ radix.marks ∧ radix.base = base := by
  constructor
  · intro h
    simp only [NumberLiteral.announcedRadix?, isLetter, Bool.or_eq_true, beq_iff_eq] at h
    split at h
    · exact ⟨.hexadecimal, by simpa [marks] using ‹_›, Option.some.inj h⟩
    split at h
    · exact ⟨.octal, by simpa [marks] using ‹_›, Option.some.inj h⟩
    split at h
    · exact ⟨.binary, by simpa [marks] using ‹_›, Option.some.inj h⟩
    · cases h
  · rintro ⟨radix, hmark, rfl⟩
    cases radix <;> simp only [marks, List.mem_cons, List.not_mem_nil, or_false] at hmark
    all_goals rcases hmark with rfl | rfl <;> rfl

end Radix

/-- A whole number as it is written, with the values of its digits: decimal digits, the first of
them in front, or a zero, the mark of a radix and digits, of which there may be none. -/
inductive Numeral : Radix → List Nat → List Char → Prop where
  /-- Decimal digits. -/
  | decimal {value : Nat} {c : Char} {values : List Nat} {row : List Char}
      (h : IsDigitOf 10 value c) (tail : DigitRow 10 values row) :
      Numeral .decimal (value :: values) (c :: row)
  /-- Digits in an announced radix. -/
  | announced {radix : Radix} {mark : Char} {values : List Nat} {row : List Char}
      (h : mark ∈ radix.marks) (tail : DigitRow radix.base values row) :
      Numeral radix values ('0' :: mark :: row)

/-- A whole number is written as a numeral with digits. -/
def Radix.Spells (radix : Radix) (n : Nat) (text : List Char) : Prop :=
  ∃ values, values ≠ [] ∧ Numeral radix values text ∧
    Nat.ofDigits radix.base values.reverse = n

namespace NumberLiteral

variable {radix : Radix} {values : List Nat} {text : List Char}

/-- Decimal digits are digits. -/
theorem isDigit_of_isDigitOf {value : Nat} {c : Char} (h : IsDigitOf 10 value c) :
    c.isDigit = true := by
  obtain ⟨hvalue, hc⟩ := h
  have hall : ∀ value < 10, (Nat.digitChar value).isDigit = true ∧
      (Nat.digitChar value).toUpper.isDigit = true := by decide
  rcases hc with rfl | rfl
  · exact (hall value hvalue).1
  · exact (hall value hvalue).2

/-- No radix is announced by what may stand among decimal digits. -/
theorem announcedRadix?_eq_none {c : Char} (h : isDigitOrUnderscore 10 c = true) :
    announcedRadix? c = none := by
  by_contra hradix
  obtain ⟨base, hbase⟩ := Option.ne_none_iff_exists'.1 hradix
  obtain ⟨radix, hmark, -⟩ := Radix.announcedRadix?_eq_some_iff.1 hbase
  have hall : (radix.marks.all fun mark => !isDigitOrUnderscore 10 mark) = true := by
    cases radix <;> rfl
  have hnot := List.all_eq_true.1 hall c hmark
  rw [h] at hnot
  cases hnot

/-- A numeral by itself is read as a whole number. -/
theorem read_numeral (h : Numeral radix values text) :
    read text = (⟨integerValue radix.base values, true, false⟩, text.length) := by
  cases h with
  | @decimal value c values row hc tail =>
    obtain ⟨hrow, hvalues⟩ := (digitRow_iff (by decide)).1 (DigitRow.digit hc tail)
    have hread := readDecimal_row hrow (show IsApart [] by simp [IsApart])
    rw [List.append_nil, hvalues] at hread
    rw [read_eq_readDecimal, hread]
    · rfl
    · intro mark after htext
      obtain ⟨rfl, rfl⟩ := List.cons.inj htext
      exact announcedRadix?_eq_none (hrow mark (by simp))
  | @announced radix mark values row hmark tail =>
    obtain ⟨hrow, hvalues⟩ := (digitRow_iff radix.base_le).1 tail
    have htake : row.takeWhile (isDigitOrUnderscore radix.base) = row :=
      List.takeWhile_eq_self_iff.2 hrow
    rw [read_announced (Radix.announcedRadix?_eq_some_iff.2 ⟨radix, hmark, rfl⟩)]
    show withSuffix _ true _ _ = _
    have hdrop : ('0' :: mark :: row).drop 2 = row := rfl
    have hsize : 2 + row.length = ('0' :: mark :: row).length := Nat.add_comm _ _
    rw [hdrop, htake, hvalues, hsize, withSuffix, List.drop_length]
    rfl

/-- A number that is not imaginary has no suffix. -/
theorem eq_of_withSuffix {value : NumberValue} {isInteger : Bool} {n size : Nat}
    {literal : NumberLiteral} (h : withSuffix value isInteger n text = (literal, size))
    (himaginary : literal.isImaginary = false) :
    literal = ⟨value, isInteger, false⟩ ∧ size = n := by
  obtain ⟨rfl, rfl⟩ := Prod.mk.inj h
  dsimp only at himaginary
  rw [himaginary]
  exact ⟨rfl, rfl⟩

/-- A decimal number is whole if it has neither a point nor a power of ten. -/
theorem eq_of_ofParts {whole part power : List Char} {literal : NumberLiteral} {size : Nat}
    (h : ofParts whole part power text = (literal, size)) (hinteger : literal.isInteger = true)
    (himaginary : literal.isImaginary = false) : part = [] ∧ size = whole.length ∧
      literal = ⟨integerValue 10 (whole.filterMap (digitInRadix? 10)), true, false⟩ := by
  unfold ofParts at h
  dsimp only at h
  split at h
  · rename_i hparts
    obtain ⟨hpart, hpower⟩ := Bool.and_eq_true_iff.1 hparts
    obtain rfl := List.isEmpty_iff.1 hpart
    obtain rfl := List.isEmpty_iff.1 hpower
    obtain ⟨hliteral, hsize⟩ := eq_of_withSuffix h himaginary
    exact ⟨rfl, hsize, hliteral⟩
  · obtain ⟨rfl, -⟩ := eq_of_withSuffix h himaginary
    cases hinteger

/-- Decimal digits are a numeral. -/
theorem numeral_of_isDigit {c : Char} (hc : c.isDigit = true) (rest : List Char) :
    Numeral .decimal (((c :: rest).takeWhile (isDigitOrUnderscore 10)).filterMap (digitInRadix? 10))
      ((c :: rest).takeWhile (isDigitOrUnderscore 10)) := by
  have hdigit := digitInRadix?_of_isDigit hc
  have htake : isDigitOrUnderscore 10 c = true := by simp [isDigitOrUnderscore, hdigit]
  rw [List.takeWhile_cons_of_pos htake, List.filterMap_cons_some hdigit]
  exact .decimal ((digitInRadix?_eq_some_iff (by decide)).1 hdigit)
    ((digitRow_iff (by decide)).2 ⟨fun d hd => List.mem_takeWhile_imp hd, rfl⟩)

/-- A whole number that is read takes a numeral, unless it is imaginary. -/
theorem numeral_of_read {c : Char} {rest : List Char} {literal : NumberLiteral} {size : Nat}
    (h : read (c :: rest) = (literal, size)) (hc : c.isDigit = true ∨ c = '.')
    (hinteger : literal.isInteger = true) (himaginary : literal.isImaginary = false) :
    ∃ radix values, Numeral radix values ((c :: rest).take size) ∧
      literal.value = integerValue radix.base values := by
  by_cases hradix : ∃ mark after, c :: rest = '0' :: mark :: after ∧ announcedRadix? mark ≠ none
  · obtain ⟨mark, after, htext, hmark⟩ := hradix
    obtain ⟨base, hbase⟩ := Option.ne_none_iff_exists'.1 hmark
    obtain ⟨radix, hmark, rfl⟩ := Radix.announcedRadix?_eq_some_iff.1 hbase
    rw [htext, read_announced hbase] at h
    obtain ⟨rfl, hsize⟩ := eq_of_withSuffix h himaginary
    have hdrop : ('0' :: mark :: after).drop 2 = after := rfl
    rw [hdrop] at hsize ⊢
    refine ⟨radix, _, ?_, rfl⟩
    rw [htext, hsize, Nat.add_comm, List.take_succ_cons, List.take_succ_cons,
      ← List.prefix_iff_eq_take.1 (List.takeWhile_prefix _)]
    exact .announced hmark ((digitRow_iff radix.base_le).2
      ⟨fun d hd => List.mem_takeWhile_imp hd, rfl⟩)
  · push Not at hradix
    rw [read_eq_readDecimal hradix, readDecimal_eq] at h
    -- There is no point, so the digits are all that is read, and the first of them is in front.
    obtain ⟨hpart, rfl, rfl⟩ := eq_of_ofParts h hinteger himaginary
    have hdigit : c.isDigit = true := by
      refine hc.resolve_right ?_
      rintro rfl
      cases hpart
    refine ⟨.decimal, _, ?_, rfl⟩
    rw [← List.prefix_iff_eq_take.1 (List.takeWhile_prefix _)]
    exact numeral_of_isDigit hdigit rest

end NumberLiteral

namespace Piece

/-- A number at the front of a text starts with a digit or a point. -/
theorem read_of_at {c : Char} {rest : List Char} {literal : NumberLiteral} {more : Nat}
    (h : Piece.at c rest = ⟨.lexeme (.number literal), more⟩) :
    (c.isDigit = true ∨ c = '.') ∧ ∃ size, NumberLiteral.read (c :: rest) = (literal, size) ∧
      more = size - 1 := by
  revert h
  -- Of all that may stand there, only a number is a number.
  refine at_induction (P := fun sized => sized = ⟨.lexeme (.number literal), more⟩ → _) c rest
    (fun piece more hpiece _ h => ?_) (fun x more hmark h => ?_) (fun _ _ h => ?_) (fun hc h => ?_)
    fun hc h => ?_
  · exact absurd (congrArg SizedPiece.piece h) (hpiece _)
  · cases h
    cases hmark
  · cases h
  · rcases hread : NumberLiteral.read (c :: rest) with ⟨literal', size⟩
    simp only [number, hread] at h
    cases h
    exact ⟨hc, size, rfl, rfl⟩
  · simp only [wordOrString] at h
    split at h
    · cases h
    · split at h <;> cases h

end Piece

/-- A whole number in a text is a numeral, unless it is imaginary. -/
theorem Tokens.numeral_of_mem {text : List Char} {t : Token} (ht : t ∈ ofText text)
    {literal : NumberLiteral} (hnumber : t.lexeme = .number literal)
    (hinteger : literal.isInteger = true) (himaginary : literal.isImaginary = false) :
    ∃ before word after radix values, text = before ++ word ++ after ∧
      t.range = ⟨byteLength before, byteLength word⟩ ∧ Numeral radix values word ∧
      literal.value = NumberLiteral.integerValue radix.base values := by
  have hwritten : t.lexeme.IsWritten := by
    rw [hnumber]
    trivial
  obtain ⟨before, c, rest, more, htext, hpiece, hrange⟩ := standsIn_of_mem ht hwritten
  rw [hnumber] at hpiece
  obtain ⟨hc, size, hread, rfl⟩ := Piece.read_of_at hpiece
  obtain ⟨radix, values, hnumeral, hvalue⟩ :=
    NumberLiteral.numeral_of_read hread hc hinteger himaginary
  cases size with
  | zero => cases hnumeral
  | succ size =>
    refine ⟨before, c :: rest.take size, rest.drop size, radix, values, ?_, hrange, hnumeral,
      hvalue⟩
    rw [htext, List.append_assoc, List.cons_append, List.take_append_drop]

/-- The value of a whole number with digits is the number below `2 ^ 63`. -/
theorem NumberLiteral.integerValue_eq {base : Nat} {values : List Nat} (hne : values ≠ []) {n : Nat}
    (hn : Nat.ofDigits base values.reverse = n) (hlimit : n < 2 ^ 63) :
    integerValue base values = .int n := by
  rw [integerValue, if_neg (by simpa using hne), valueInRadix_eq, hn]
  exact if_pos hlimit

/-- Without digits, and from `2 ^ 63` on, the value is that of no whole number. -/
theorem NumberLiteral.integerValue_ne {base : Nat} {values : List Nat}
    (h : values ≠ [] → 2 ^ 63 ≤ Nat.ofDigits base values.reverse) (k : Nat) :
    integerValue base values ≠ .int k := by
  have hfloat : ∀ x, NumberValue.float x ≠ .int k := fun x heq => by cases heq
  rw [integerValue, valueInRadix_eq]
  split
  · exact hfloat _
  rename_i hdigits
  have hexact : ¬ Nat.ofDigits base values.reverse < exactLimit :=
    Nat.not_lt.2 (h (by simpa using hdigits))
  rw [if_neg hexact]
  split
  · exact hfloat _
  · exact hfloat _

/-- A whole number by itself is one token, whatever its radix. Below `2 ^ 63` it has its value, and
from there on the value of no whole number. -/
theorem Tokens.ofText_numeral {radix : Radix} {n : Nat} {text : List Char}
    (h : radix.Spells n text) :
    ∃ value, ofText text = ofLexeme (.number ⟨value, true, false⟩) (byteLength text) ∧
      (n < 2 ^ 63 → value = .int n) ∧ (2 ^ 63 ≤ n → ∀ k, value ≠ .int k) := by
  obtain ⟨values, hne, hnumeral, hn⟩ := h
  refine ⟨NumberLiteral.integerValue radix.base values, ?_,
    NumberLiteral.integerValue_eq hne hn, fun hlimit => NumberLiteral.integerValue_ne fun _ => ?_⟩
  swap
  · rwa [hn]
  obtain ⟨c, rest, rfl, hc⟩ : ∃ c rest, text = c :: rest ∧ c.isDigit = true := by
    cases hnumeral with
    | decimal hc tail => exact ⟨_, _, rfl, NumberLiteral.isDigit_of_isDigitOf hc⟩
    | announced hmark tail => exact ⟨_, _, rfl, rfl⟩
  have hpiece : Piece.at c rest = ⟨.lexeme (.number
      ⟨NumberLiteral.integerValue radix.base values, true, false⟩), rest.length⟩ := by
    rw [at_of_isDigit hc, Piece.number, NumberLiteral.read_numeral hnumeral]
    rfl
  exact ofText_lexeme hpiece (Nat.le_refl _)

/-- A hexadecimal number with a leading zero, digits in both cases and underscores around them. -/
theorem Tokens.ofText_numeral_hexadecimal :
    Radix.hexadecimal.Spells 255 ['0', 'X', '_', '0', 'f', 'F', '_'] ∧
      ∃ value, ofText ['0', 'X', '_', '0', 'f', 'F', '_'] =
          ofLexeme (.number ⟨value, true, false⟩) 7 ∧
        (255 < 2 ^ 63 → value = .int 255) ∧ (2 ^ 63 ≤ 255 → ∀ k, value ≠ .int k) := by
  have hspells : Radix.hexadecimal.Spells 255 ['0', 'X', '_', '0', 'f', 'F', '_'] := by
    refine ⟨[0, 15, 15], by decide, .announced (by decide) ?_, by decide⟩
    exact .underscore (.digit (by decide) (.digit (by decide) (.digit (by decide)
      (.underscore .nil))))
  exact ⟨hspells, ofText_numeral hspells⟩

end TypeProbe
