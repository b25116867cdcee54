import TypeProbe.Proofs.Token.Numerals

/-!
# Escapes in strings

Each character of a string can be written in several ways (`Writes`): as itself, by one letter, or
by its code in octal or hexadecimal digits. Whatever is chosen for each of them, what is written
between quotes is one token, which stands for the characters (`Tokens.ofText_quoted`).
-/

namespace TypeProbe

/-- The letters of the short escapes and the characters that they stand for. -/
def shortEscapes : List (Char × Char) :=
  [('\\', '\\'), ('\'', '\''), ('"', '"'), ('a', '\x07'), ('b', '\x08'), ('t', '\x09'),
    ('n', '\x0a'), ('v', '\x0b'), ('f', '\x0c'), ('r', '\x0d')]

/-- The letters of the escapes by hexadecimal digits, and how many of them they take. -/
def hexEscapes : List (Char × Nat) := [('x', 2), ('u', 4), ('U', 8)]

/-- So many digits are the code of a character. -/
def SpellsCode (base count : Nat) (c : Char) (digits : List Char) : Prop :=
  digits.length = count ∧
    ∃ values, List.Forall₂ (IsDigitOf base) values digits ∧
      Nat.ofDigits base values.reverse = c.toNat

/-- A way to write a character between quotes. -/
inductive Writes (quote : Char) : Char → List Char → Prop where
  /-- As itself, which neither ends the string or its line nor starts an escape. -/
  | plain {c : Char} (hquote : c ≠ quote) (hescape : c ≠ '\\') (hend : ¬ IsLineEnd c) :
      Writes quote c [c]
  /-- By one letter. -/
  | short {letter c : Char} (h : (letter, c) ∈ shortEscapes) : Writes quote c ['\\', letter]
  /-- By three octal digits. -/
  | octal {c : Char} {digits : List Char} (h : SpellsCode 8 3 c digits) :
      Writes quote c ('\\' :: digits)
  /-- By two, four or eight hexadecimal digits. -/
  | hexadecimal {letter c : Char} {count : Nat} {digits : List Char}
      (hletter : (letter, count) ∈ hexEscapes) (h : SpellsCode 16 count c digits) :
      Writes quote c ('\\' :: letter :: digits)

/-- The quotes on one side of a string: one or three. -/
def quotesOf (quote : Char) (triple : Bool) : List Char :=
  List.replicate (if triple then 3 else 1) quote

/-- The text of a string: what is written, between quotes of a kind. -/
def quotedText (quote : Char) (triple : Bool) (written : List (List Char)) : List Char :=
  quotesOf quote triple ++ (written.flatten ++ quotesOf quote triple)

/-- A string starts with a quote. -/
theorem quotedText_eq_cons (quote : Char) (triple : Bool) (written : List (List Char)) :
    ∃ after, quotedText quote triple written = quote :: after := by
  cases triple <;> exact ⟨_, rfl⟩

namespace Quoting

variable {q : Quoting} {c : Char} {digits rest : List Char}

/-- Digits have their values. -/
theorem filterMap_digitInRadix? {base : Nat} {values : List Nat} (hbase : base ≤ 16)
    (h : List.Forall₂ (IsDigitOf base) values digits) :
    digits.filterMap (digitInRadix? base) = values := by
  induction h with
  | nil => rfl
  | cons hdigit _ ih =>
    rw [List.filterMap_cons_some ((digitInRadix?_eq_some_iff hbase).2 hdigit), ih]

/-- Digits are digits of the radix. -/
theorem isSome_digitInRadix? {base : Nat} {values : List Nat} (hbase : base ≤ 16)
    (h : List.Forall₂ (IsDigitOf base) values digits) :
    ∀ d ∈ digits, (digitInRadix? base d).isSome = true := by
  induction h with
  | nil => exact List.forall_mem_nil _
  | cons hdigit _ ih =>
    refine List.forall_mem_cons.2 ⟨?_, ih⟩
    rw [(digitInRadix?_eq_some_iff hbase).2 hdigit]
    rfl

/-- The digits of a code have it as their value. -/
theorem valueInRadix_of_spellsCode {base count : Nat} (hbase : base ≤ 16)
    (h : SpellsCode base count c digits) :
    (digits.filterMap (digitInRadix? base)).length = count ∧
      valueInRadix base (digits.filterMap (digitInRadix? base)) = c.toNat := by
  obtain ⟨hlength, values, hdigits, hcode⟩ := h
  rw [filterMap_digitInRadix? hbase hdigits, valueInRadix_eq, hcode, hdigits.length_eq, hlength]
  exact ⟨rfl, rfl⟩

/-- Up to sixteen all digits count. -/
theorem digitInRadix?_sixteen : digitInRadix? 16 = digitValue? := by
  funext c
  cases hvalue : digitValue? c with
  | none => rw [digitInRadix?, hvalue, Option.filter_none]
  | some value =>
    have hlow : decide (value < 16) = true := decide_eq_true (digitValue?_eq_some_iff.1 hvalue).1
    rw [digitInRadix?, hvalue, Option.filter_some, if_pos hlow]

/-- An escape by hexadecimal digits is the character with their code. -/
theorem hexEscape_of_spellsCode {count : Nat} (h : SpellsCode 16 count c digits)
    (rest : List Char) : hexEscape count (digits ++ rest) = ⟨[c], false, count + 1⟩ := by
  obtain ⟨hvalues, hcode⟩ := valueInRadix_of_spellsCode (by decide) h
  rw [digitInRadix?_sixteen] at hvalues hcode
  have htake : (digits ++ rest).take count = digits := by rw [← h.1, List.take_left]
  have hchar : charOfCode? c.toNat = some c := by
    have hvalid : c.toNat.isValidChar := c.valid
    rw [charOfCode?, if_pos hvalid, Char.ofNat_toNat]
  simp only [hexEscape, htake, if_pos hvalues, hcode, hchar]

/-- An escape by three octal digits is the character with their code. -/
theorem octalEscape_of_spellsCode {first : Char} (h : SpellsCode 8 3 c (first :: digits))
    (rest : List Char) : octalEscape first (digits ++ rest) = ⟨[c], false, 3⟩ := by
  obtain ⟨-, hcode⟩ := valueInRadix_of_spellsCode (by decide) h
  obtain ⟨hlength, values, hdigits, -⟩ := h
  have htwo : digits.length = 2 := Nat.succ.inj hlength
  have htake : (digits ++ rest).take 2 = digits := by rw [← htwo, List.take_left]
  have hall : digits.takeWhile (fun c => (digitInRadix? 8 c).isSome) = digits :=
    List.takeWhile_eq_self_iff.2 fun d hd =>
      isSome_digitInRadix? (by decide) hdigits d (List.mem_cons_of_mem _ hd)
  rw [octalEscape, htake, hall, hcode, Char.ofNat_toNat, hlength]

/-- An octal digit is the letter of no escape. -/
theorem escape_of_isDigitOf {value : Nat} (h : IsDigitOf 8 value c) (rest : List Char) :
    q.escape c rest = octalEscape c rest := by
  have hletters : ∀ value < 8, letterEscape? (Nat.digitChar value) = none ∧
      (Nat.digitChar value).toUpper = Nat.digitChar value ∧ Nat.digitChar value ≠ '\n' ∧
      Nat.digitChar value ≠ '\r' := by decide
  obtain ⟨hletter, hupper, hfeed, hreturn⟩ := hletters value h.1
  have hdigit := (digitInRadix?_eq_some_iff (by decide)).2 h
  obtain rfl : c = Nat.digitChar value := by
    have hc := h.2
    rwa [hupper, or_self] at hc
  rw [escape, hletter]
  dsimp only
  rw [if_neg hfeed, if_neg hreturn, hdigit, Option.isSome_some, if_pos rfl]

/-- The letter of a short escape stands for its character. -/
theorem escape_of_mem_shortEscapes {letter : Char} (h : (letter, c) ∈ shortEscapes)
    (rest : List Char) : q.escape letter rest = ⟨[c], false, 1⟩ := by
  have hall : ∀ x ∈ shortEscapes, letterEscape? x.1 = some x.2 := by decide
  rw [escape, hall _ h]

/-- The letter of an escape by hexadecimal digits takes its digits. -/
theorem escape_of_mem_hexEscapes (hbytes : q.bytes = false) {letter : Char} {count : Nat}
    (h : (letter, count) ∈ hexEscapes) (rest : List Char) :
    q.escape letter rest = hexEscape count rest := by
  have hall : ∀ x ∈ hexEscapes, letterEscape? x.1 = none ∧ digitInRadix? 8 x.1 = none ∧
      x.1 ≠ '\n' ∧ x.1 ≠ '\r' := by decide
  obtain ⟨hletter, hdigit, hfeed, hreturn⟩ := hall _ h
  rw [escape, hletter]
  dsimp only at hdigit hfeed hreturn ⊢
  rw [if_neg hfeed, if_neg hreturn, hdigit, hbytes]
  simp only [hexEscapes, List.mem_cons, Prod.mk.injEq, List.not_mem_nil, or_false] at h
  rcases h with ⟨rfl, rfl⟩ | ⟨rfl, rfl⟩ | ⟨rfl, rfl⟩ <;> rfl

/-- What follows a backslash is an escape. -/
theorem step_backslash (hraw : q.raw = false) (letter : Char) (rest : List Char) :
    q.step '\\' (letter :: rest) = .part (q.escape letter rest) := by
  simp [step, hraw]

/-- However a character is written, it is one part of a string, which stands for it. -/
theorem step_writes (hraw : q.raw = false) (hbytes : q.bytes = false) {written : List Char}
    (h : Writes q.quote c written) : ∃ first more, written = first :: more ∧
      ∀ rest, q.step first (more ++ rest) = .part ⟨[c], false, more.length⟩ := by
  cases h with
  | plain hquote hescape hend =>
    refine ⟨c, [], rfl, fun rest => ?_⟩
    obtain ⟨hfeed, hreturn⟩ := not_or.1 hend
    simp [step, hquote, hescape, hfeed, hreturn]
  | short h =>
    refine ⟨_, _, rfl, fun rest => ?_⟩
    rw [List.singleton_append, step_backslash hraw, escape_of_mem_shortEscapes h]
    rfl
  | @octal c digits h =>
    have hthree := h.1
    cases digits with
    | nil => cases hthree
    | cons first digits =>
      obtain ⟨-, values, hdigits, -⟩ := id h
      cases hdigits with
      | cons hfirst hdigits =>
        refine ⟨_, _, rfl, fun rest => ?_⟩
        rw [List.cons_append, step_backslash hraw, escape_of_isDigitOf hfirst,
          octalEscape_of_spellsCode h, hthree]
  | hexadecimal hletter h =>
    refine ⟨_, _, rfl, fun rest => ?_⟩
    rw [List.cons_append, step_backslash hraw, escape_of_mem_hexEscapes hbytes hletter,
      hexEscape_of_spellsCode h, List.length_cons, h.1]

/-- The closing quotes are the end of a string. -/
theorem step_quotes (hquote : q.quote = '"' ∨ q.quote = '\'') :
    ∃ more, quotesOf q.quote q.triple = q.quote :: more ∧
      q.step q.quote more = .close more.length := by
  obtain ⟨quote, triple, raw, bytes⟩ := q
  rcases hquote with rfl | rfl <;> cases triple <;> exact ⟨_, rfl, rfl⟩

/-- What is written between quotes is read as what it stands for. -/
theorem readBody_writes (hquote : q.quote = '"' ∨ q.quote = '\'') (hraw : q.raw = false)
    (hbytes : q.bytes = false) {value : List Char} {written : List (List Char)}
    (h : List.Forall₂ (Writes q.quote) value written) (sofar : StringBody) :
    q.readBody sofar (written.flatten ++ quotesOf q.quote q.triple) =
      { sofar with
        value := sofar.value ++ String.ofList value
        size := sofar.size + (written.flatten ++ quotesOf q.quote q.triple).length } := by
  -- On what is written: each way to write a character is one part, and then the quotes close.
  induction h generalizing sofar with
  | nil =>
    obtain ⟨more, hquotes, hstep⟩ := step_quotes hquote
    rw [List.flatten_nil, List.nil_append, hquotes, readBody_of_close hstep, String.ofList_nil,
      String.append_empty, List.length_cons, Nat.add_assoc, Nat.add_comm 1]
  | @cons c part value written hpart _ ih =>
    obtain ⟨first, more, rfl, hstep⟩ := step_writes hraw hbytes hpart
    rw [List.flatten_cons, List.cons_append, List.cons_append, List.append_assoc,
      readBody_of_part (hstep _), List.drop_left, ih]
    have hvalue : (sofar.add ⟨[c], false, more.length⟩).value ++ String.ofList value =
        sofar.value ++ String.ofList (c :: value) := by
      rw [← String.toList_inj, String.toList_append, String.toList_append,
        StringBody.toList_value_add, String.toList_ofList, String.toList_ofList, List.append_assoc]
      rfl
    have hmalformed : (sofar.add ⟨[c], false, more.length⟩).malformed = sofar.malformed :=
      Bool.or_false _
    have hsize : (sofar.add ⟨[c], false, more.length⟩).size +
        (written.flatten ++ quotesOf q.quote q.triple).length =
          sofar.size +
            (first :: (more ++ (written.flatten ++ quotesOf q.quote q.triple))).length := by
      rw [List.length_cons, @List.length_append _ more]
      dsimp only [StringBody.add]
      omega
    rw [hvalue, hmalformed, hsize]
    rfl

end Quoting

namespace StringLiteral

variable {quote : Char} {triple : Bool} {value : List Char} {written : List (List Char)}

/-- Nothing that is written between quotes starts with one. -/
theorem ne_of_writes (hquote : quote = '"' ∨ quote = '\'') {c d : Char} {more : List Char}
    (h : Writes quote c (d :: more)) : d ≠ quote := by
  have hescape : '\\' ≠ quote := by
    rcases hquote with rfl | rfl <;> decide
  cases h with
  | plain hplain _ _ => exact hplain
  | short _ => exact hescape
  | octal _ => exact hescape
  | hexadecimal _ _ => exact hescape

/-- The quotes of a string are as many as are written. -/
theorem isTriple_quotedText (hquote : quote = '"' ∨ quote = '\'')
    (h : List.Forall₂ (Writes quote) value written) {after : List Char}
    (hafter : quotedText quote triple written = quote :: after) :
    isTriple quote after = triple := by
  have htake : (quote :: after).take 3 = [quote, quote, quote] ↔ triple = true := by
    rw [← hafter]
    cases triple with
    | true => exact ⟨fun _ => rfl, fun _ => rfl⟩
    | false =>
      refine ⟨fun hthree => ?_, fun hfalse => absurd hfalse Bool.false_ne_true⟩
      -- Behind the only quote there is the first character of what is written, or nothing but it.
      cases h with
      | nil => cases hthree
      | @cons c part value written hpart _ =>
        cases part with
        | nil => cases hpart
        | cons d more =>
          exact absurd (List.cons.inj (List.cons.inj hthree).2).1 (ne_of_writes hquote hpart)
  rw [isTriple, Bool.eq_iff_iff, beq_iff_eq, htake]

/-- A string is read as what is written between its quotes. -/
theorem read_quotedText (hquote : quote = '"' ∨ quote = '\'')
    (h : List.Forall₂ (Writes quote) value written) :
    read [] quote (quotedText quote triple written) =
      (⟨flagsOf [] quote triple false, String.ofList value, false⟩,
        (quotedText quote triple written).length) := by
  obtain ⟨after, hafter⟩ := quotedText_eq_cons quote triple written
  have htriple := isTriple_quotedText hquote h hafter
  have hopening : opening quote after = (quotesOf quote triple).length := by
    rw [opening, htriple]
    exact List.length_replicate.symm
  have hbody : body [] quote after =
      ⟨String.ofList value, false, false, (quotedText quote triple written).length⟩ := by
    rw [body, quoting, htriple, ← hafter, hopening, quotedText, List.drop_left]
    refine (Quoting.readBody_writes hquote rfl rfl h _).trans ?_
    rw [String.empty_append, ← List.length_append]
  rw [hafter, read_eq, htriple, hbody, hafter]

end StringLiteral

/-- Characters that are written between quotes, each in any of its ways, are one token, which stands
for them. -/
theorem Tokens.ofText_quoted {quote : Char} (hquote : quote = '"' ∨ quote = '\'') (triple : Bool)
    {value : List Char} {written : List (List Char)}
    (h : List.Forall₂ (Writes quote) value written) :
    ∃ flags, flags.has .unterminated = false ∧
      ofText (quotedText quote triple written) =
        ofLexeme (.string ⟨flags, String.ofList value, false⟩)
          (byteLength (quotedText quote triple written)) := by
  refine ⟨StringLiteral.flagsOf [] quote triple false, ?_, ?_⟩
  · rcases hquote with rfl | rfl <;> cases triple <;> decide
  -- A quote in front starts the string, which takes the whole text.
  have hread := @StringLiteral.read_quotedText quote triple value written hquote h
  obtain ⟨after, hafter⟩ := quotedText_eq_cons quote triple written
  rw [hafter] at hread ⊢
  refine ofText_lexeme ?_ (Nat.le_refl after.length)
  rw [Piece.at_of_quote hquote, Piece.ofString, hread]
  dsimp only
  simp

/-- The quote, a character beyond the basic ones, the end of a line and a letter between three
quotes, each written in another way. -/
theorem Tokens.ofText_quoted_mixed :
    ('\'' = '"' ∨ '\'' = '\'') ∧
      List.Forall₂ (Writes '\'') ['\'', '😀', '\n', 'a']
        [['\\', '\''], ['\\', 'U', '0', '0', '0', '1', 'f', '6', '0', '0'], ['\\', '0', '1', '2'],
          ['a']] ∧
      ∃ flags, flags.has .unterminated = false ∧
        ofText (quotedText '\'' true
            [['\\', '\''], ['\\', 'U', '0', '0', '0', '1', 'f', '6', '0', '0'],
              ['\\', '0', '1', '2'], ['a']]) =
          ofLexeme (.string ⟨flags, String.ofList ['\'', '😀', '\n', 'a'], false⟩) 23 := by
  have hsmiley : SpellsCode 16 8 '😀' ['0', '0', '0', '1', 'f', '6', '0', '0'] :=
    ⟨rfl, [0, 0, 0, 1, 15, 6, 0, 0], by simp [IsDigitOf, Nat.digitChar], rfl⟩
  have hfeed : SpellsCode 8 3 '\n' ['0', '1', '2'] :=
    ⟨rfl, [0, 1, 2], by simp [IsDigitOf, Nat.digitChar], rfl⟩
  have hwritten : List.Forall₂ (Writes '\'') ['\'', '😀', '\n', 'a']
      [['\\', '\''], ['\\', 'U', '0', '0', '0', '1', 'f', '6', '0', '0'], ['\\', '0', '1', '2'],
        ['a']] :=
    .cons (.short (by decide)) (.cons (.hexadecimal (by decide) hsmiley)
      (.cons (.octal hfeed) (.cons (.plain (by decide) (by decide) (by simp [IsLineEnd])) .nil)))
  exact ⟨.inr rfl, hwritten, ofText_quoted (.inr rfl) true hwritten⟩

end TypeProbe
