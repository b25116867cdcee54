import TypeProbe.Proofs.Token.Readings
import TypeProbe.Proofs.Written.Words

/-!
# Tokens by themselves

What a token is depends on nothing but the characters that it covers: tokenized by themselves they
give the same token (`Tokens.ofText_slice`). Reading a token looks at characters behind it, to see
where it ends and whether a longer one stands there, but never takes one thing for another because
of them. `IsLocal` says this of anything that is read at the front of a text: if it takes no more
than some word there, then it is the same where the word is all there is. Readers are put together
from local ones, by taking one behind another (`IsLocal.behind`) and by tests that no longer text
undoes (`IsLocal.test`).
-/

namespace TypeProbe

/-- What is read at the front of a text, and takes so many characters there, is the same where the
text ends behind them. -/
def IsLocal {α : Type} (size : α → Nat) (read : List Char → α) : Prop :=
  ∀ word rest, size (read (word ++ rest)) ≤ word.length → read word = read (word ++ rest)

namespace IsLocal

variable {α : Type} {size : α → Nat} {f g : List Char → α}

/-- What does not look at the text is local. -/
theorem const (a : α) : IsLocal size fun _ => a := fun _ _ _ => rfl

/-- A choice that does not look at the text is local. -/
theorem ite {P : Prop} [Decidable P] (hf : P → IsLocal size f) (hg : ¬ P → IsLocal size g) :
    IsLocal size fun text => if P then f text else g text := by
  by_cases hP : P
  · simpa only [if_pos hP] using hf hP
  · simpa only [if_neg hP] using hg hP

/-- A test of the text is local if it comes out the same on longer texts, and on shorter ones as
long as they hold what is read. -/
theorem test {P : List Char → Prop} [DecidablePred P] (hf : IsLocal size f) (hg : IsLocal size g)
    (hlonger : ∀ word rest, P word → P (word ++ rest))
    (hshorter : ∀ word rest, P (word ++ rest) → size (f (word ++ rest)) ≤ word.length → P word) :
    IsLocal size fun text => if P text then f text else g text := by
  intro word rest h
  by_cases htest : P (word ++ rest)
  · simp only [if_pos htest] at h ⊢
    rw [if_pos (hshorter word rest htest h), hf word rest h]
  · simp only [if_neg htest] at h ⊢
    rw [if_neg fun hword => htest (hlonger word rest hword), hg word rest h]

/-- A test of the first character is local if what is read then takes it. -/
theorem testHead {P : Option Char → Prop} [DecidablePred P] (hf : IsLocal size f)
    (hg : IsLocal size g) (hnone : ¬ P none) (hsize : ∀ text, P text.head? → 1 ≤ size (f text)) :
    IsLocal size fun text => if P text.head? then f text else g text := by
  refine hf.test hg (fun word rest hword => ?_) fun word rest htest hshort => ?_
  · cases word with
    | nil => exact absurd hword hnone
    | cons c word => exact hword
  · cases word with
    | nil => exact absurd hshort (Nat.not_le_of_lt (hsize _ htest))
    | cons c word => exact htest

/-- A test for some characters is local if what is read then takes them. -/
theorem testTake (pattern : List Char) (hf : IsLocal size f) (hg : IsLocal size g)
    (hsize : ∀ text, pattern.length ≤ size (f text)) :
    IsLocal size fun text => if text.take pattern.length = pattern then f text else g text := by
  refine hf.test hg (fun word rest hword => ?_) fun word rest htest hshort => ?_
  · have hlength := congrArg List.length hword
    rw [List.length_take] at hlength
    rwa [List.take_append_of_le_length (by omega)]
  · rwa [List.take_append_of_le_length (Nat.le_trans (hsize _) hshort)] at htest

/-- What is read behind some characters is the same. -/
theorem behind (h : IsLocal size f) {word : List Char} (rest : List Char) {n : Nat}
    (hn : n ≤ word.length) (hsize : n + size (f ((word ++ rest).drop n)) ≤ word.length) :
    f (word.drop n) = f ((word ++ rest).drop n) := by
  rw [List.drop_append_of_le_length hn] at hsize ⊢
  refine h _ _ ?_
  rw [List.length_drop]
  omega

/-- Characters of a class are taken in a local way. -/
theorem takeWhile (p : Char → Bool) : IsLocal List.length (List.takeWhile p) := by
  intro word rest h
  induction word with
  | nil => exact (List.eq_nil_of_length_eq_zero (Nat.le_zero.1 h)).symm
  | cons c word ih =>
    rw [List.cons_append] at h ⊢
    by_cases hc : p c = true
    · rw [List.takeWhile_cons_of_pos hc] at h
      rw [List.takeWhile_cons_of_pos hc, List.takeWhile_cons_of_pos hc,
        ih (Nat.le_of_succ_le_succ h)]
    · rw [List.takeWhile_cons_of_neg hc, List.takeWhile_cons_of_neg hc]

/-- Characters are taken in a local way if nothing is taken of nothing. -/
theorem of_cons {take : List Char → List Char} (hnil : take [] = [])
    (hcons : ∀ c, IsLocal (fun taken => taken.length - 1) fun text => take (c :: text)) :
    IsLocal List.length take := by
  intro word rest h
  cases word with
  | nil => exact hnil.trans (List.eq_nil_of_length_eq_zero (Nat.le_zero.1 h)).symm
  | cons c word => exact hcons c word rest (Nat.sub_le_of_le_add h)

end IsLocal

/-- The first character of what is left of a word does not depend on what comes behind the word. -/
theorem head?_drop_append {word : List Char} {n : Nat} (hn : n < word.length) (rest : List Char) :
    ((word ++ rest).drop n).head? = (word.drop n).head? := by
  rw [List.head?_drop, List.head?_drop, List.getElem?_append_left hn]

/-! ## Numbers -/

namespace NumberLiteral

variable {word rest : List Char}

/-- A point and its digits are taken in a local way. -/
theorem isLocal_fractionSpelling : IsLocal List.length fractionSpelling := by
  refine .of_cons rfl fun c => ?_
  by_cases hpoint : c = '.'
  · subst hpoint
    exact fun word rest h => congrArg (List.cons '.') (IsLocal.takeWhile _ word rest h)
  · have hnone : ∀ text, fractionSpelling (c :: text) = [] := fun text => by
      simp [fractionSpelling, hpoint]
    simpa only [hnone] using IsLocal.const []

/-- Whether there is a sign is a matter of the first character. -/
theorem signSpelling_cons (c : Char) (text : List Char) :
    signSpelling (c :: text) = signSpelling [c] := by
  by_cases hplus : c = '+'
  · rw [hplus]
    rfl
  by_cases hminus : c = '-'
  · rw [hminus]
    rfl
  · simp [signSpelling, hplus, hminus]

/-- A sign is taken in a local way. -/
theorem isLocal_signSpelling : IsLocal List.length signSpelling := by
  refine .of_cons rfl fun c => ?_
  simpa only [signSpelling_cons c] using IsLocal.const (signSpelling [c])

/-- Digits are taken where a digit stands. -/
theorem one_le_digits {text : List Char} (h : (text.head?.map Char.isDigit).getD false = true) :
    1 ≤ (text.takeWhile (isDigitOrUnderscore 10)).length := by
  cases text with
  | nil => cases h
  | cons d text =>
    have hd : isDigitOrUnderscore 10 d = true := by
      rw [isDigitOrUnderscore, digitInRadix?_of_isDigit h]
      simp
    rw [List.takeWhile_cons_of_pos hd]
    exact Nat.succ_pos _

/-- A power of ten is taken in a local way. -/
theorem isLocal_exponentSpelling : IsLocal List.length exponentSpelling := by
  refine .of_cons rfl fun mark word rest h => ?_
  simp only [exponentSpelling_cons] at h ⊢
  by_cases hpower : isLetter 'e' mark = true ∧
      (((word ++ rest).drop (signSpelling (word ++ rest)).length).head?.map
        Char.isDigit).getD false = true
  · -- The first digit is in the word, and so is the sign.
    have hdigits := one_le_digits hpower.2
    rw [if_pos hpower, List.length_cons, List.length_append] at h
    have hsign : signSpelling word = signSpelling (word ++ rest) :=
      isLocal_signSpelling word rest (by omega)
    rw [if_pos hpower, hsign, ← head?_drop_append (by omega) rest, if_pos hpower,
      (IsLocal.takeWhile _).behind rest (by omega) (by omega)]
  · rw [if_neg hpower, if_neg]
    rintro ⟨hmark, hdigit⟩
    have hn : (signSpelling word).length < word.length := by
      by_contra hlong
      rw [List.drop_eq_nil_of_le (Nat.le_of_not_lt hlong)] at hdigit
      cases hdigit
    refine hpower ⟨hmark, ?_⟩
    cases word with
    | nil => cases hn
    | cons d word =>
      rw [← head?_drop_append hn rest, signSpelling_cons, ← signSpelling_cons d (word ++ rest)]
        at hdigit
      exact hdigit

/-- Whether the mark of the imaginary unit comes first is a matter of the first character. -/
theorem startsImaginary_eq (text : List Char) :
    startsImaginary text = (text.head?.map (isLetter 'j')).getD false := by
  cases text <;> rfl

/-- The suffix of a number is read in a local way. -/
theorem isLocal_withSuffix (value : NumberValue) (isInteger : Bool) (size : Nat) :
    IsLocal Prod.snd (withSuffix value isInteger size) := by
  have htest : withSuffix value isInteger size = fun text =>
      if startsImaginary (text.drop size) = true then (⟨value, isInteger, true⟩, size + 1)
      else (⟨value, isInteger, false⟩, size) := by
    funext text
    cases hstarts : startsImaginary (text.drop size) <;> simp [withSuffix, hstarts]
  rw [htest]
  refine .test (.const _) (.const _) (fun word rest hstarts => ?_) fun word rest hstarts hsize => ?_
  · rw [startsImaginary_eq] at hstarts ⊢
    rwa [head?_drop_append]
    -- The mark is in the word, since it is found there.
    by_contra hlong
    rw [List.drop_eq_nil_of_le (Nat.le_of_not_lt hlong)] at hstarts
    cases hstarts
  · rw [startsImaginary_eq] at hstarts ⊢
    rwa [head?_drop_append hsize] at hstarts

/-- A number takes its suffix, too. -/
theorem le_withSuffix (value : NumberValue) (isInteger : Bool) (size : Nat) (text : List Char) :
    size ≤ (withSuffix value isInteger size text).2 := by
  simp only [withSuffix]
  split <;> omega

/-- A number in an announced radix is read in a local way. -/
theorem isLocal_readInRadix (radix : Nat) : IsLocal Prod.snd (readInRadix radix) := by
  intro word rest h
  have hsize := Nat.le_trans (le_withSuffix _ _ _ _) h
  have hdigits := (IsLocal.takeWhile (isDigitOrUnderscore radix)).behind rest
    (Nat.le_trans (Nat.le_add_right 2 _) hsize) hsize
  rw [readInRadix, hdigits]
  exact isLocal_withSuffix _ _ _ word rest h

/-- A decimal number that is put together from three parts, in front of a text. -/
def ofParts (whole part power text : List Char) : NumberLiteral × Nat :=
  let size := whole.length + part.length + power.length
  if part.isEmpty && power.isEmpty then
    withSuffix (integerValue 10 (whole.filterMap (digitInRadix? 10))) true size text
  else
    withSuffix (.float ((Binary64.parse? ((whole ++ part ++ power).filter (· != '_'))).getD .nan))
      false size text

/-- A decimal number is put together from the three parts that are taken one after the other. -/
theorem readDecimal_eq (text : List Char) : readDecimal text =
    let whole := text.takeWhile (isDigitOrUnderscore 10)
    let part := fractionSpelling (text.drop whole.length)
    ofParts whole part (exponentSpelling (text.drop (whole.length + part.length))) text := by
  dsimp only
  rw [← List.drop_drop]
  rfl

/-- The suffix of a decimal number is read in a local way. -/
theorem isLocal_ofParts (whole part power : List Char) :
    IsLocal Prod.snd (ofParts whole part power) :=
  .ite (fun _ => isLocal_withSuffix _ _ _) fun _ => isLocal_withSuffix _ _ _

/-- A decimal number takes all of its parts. -/
theorem le_ofParts (whole part power text : List Char) :
    whole.length + part.length + power.length ≤ (ofParts whole part power text).2 := by
  unfold ofParts
  dsimp only
  split
  · exact le_withSuffix _ _ _ _
  · exact le_withSuffix _ _ _ _

/-- A decimal number is read in a local way. -/
theorem isLocal_readDecimal : IsLocal Prod.snd readDecimal := by
  intro word rest h
  rw [readDecimal_eq] at h ⊢
  rw [readDecimal_eq]
  dsimp only at h ⊢
  -- The three parts together are in the word, so each is, behind those before it.
  have hsize := Nat.le_trans (le_ofParts _ _ _ _) h
  rw [IsLocal.takeWhile _ word rest (by omega),
    isLocal_fractionSpelling.behind rest (by omega) (by omega),
    isLocal_exponentSpelling.behind rest (by omega) (by omega)]
  exact isLocal_ofParts _ _ _ word rest h

/-- A number in an announced radix is read as one. -/
theorem read_announced {mark : Char} {radix : Nat} (h : announcedRadix? mark = some radix)
    (after : List Char) :
    read ('0' :: mark :: after) = readInRadix radix ('0' :: mark :: after) := by
  simp only [read, h]

/-- A number is read in a local way. -/
theorem isLocal_read : IsLocal Prod.snd read := by
  intro word rest h
  by_cases hradix : ∃ mark after, word ++ rest = '0' :: mark :: after ∧ announcedRadix? mark ≠ none
  · obtain ⟨mark, after, htext, hmark⟩ := hradix
    obtain ⟨radix, hradix⟩ := Option.ne_none_iff_exists'.1 hmark
    rw [htext, read_announced hradix, ← htext] at h
    -- The zero and the mark are in the word, even if no digit is.
    have hlong := Nat.le_trans (le_withSuffix _ _ _ _) h
    have hfront : word.take 2 = ['0', mark] := by
      rw [← List.take_append_of_le_length (by omega), htext]
      rfl
    have hword : word = '0' :: mark :: word.drop 2 := by
      rw [← List.take_append_drop 2 word, hfront]
      rfl
    rw [hword, read_announced hradix, ← hword, isLocal_readInRadix radix word rest h, htext,
      read_announced hradix]
  · push Not at hradix
    rw [read_eq_readDecimal hradix] at h ⊢
    rw [read_eq_readDecimal, isLocal_readDecimal word rest h]
    rintro mark after rfl
    exact hradix mark (after ++ rest) rfl

/-- A number that starts with a point takes it and the digit behind it. -/
theorem two_le_read {text : List Char} (h : (text.head?.map Char.isDigit).getD false = true) :
    2 ≤ (read ('.' :: text)).2 := by
  have hradix : ∀ mark after, '.' :: text = '0' :: mark :: after → announcedRadix? mark = none :=
    fun _ _ heq => absurd (List.cons.inj heq).1 (by decide)
  have hwhole : ('.' :: text).takeWhile (isDigitOrUnderscore 10) = [] := rfl
  have hpart : fractionSpelling (('.' :: text).drop ([] : List Char).length) =
      '.' :: text.takeWhile (isDigitOrUnderscore 10) := rfl
  have hdigits := one_le_digits h
  rw [read_eq_readDecimal hradix, readDecimal_eq]
  dsimp only
  rw [hwhole, hpart]
  refine Nat.le_trans ?_ (le_ofParts _ _ _ _)
  rw [List.length_cons]
  omega

end NumberLiteral

/-! ## Strings -/

namespace Quoting

/-- An escape by hexadecimal digits takes all of them, or it is malformed and takes its letter. -/
theorem hexEscape_more (count : Nat) (rest : List Char) :
    (hexEscape count rest).more = count + 1 ∨ hexEscape count rest = ⟨[], true, 1⟩ := by
  simp only [hexEscape]
  split
  · exact .inl rfl
  · exact .inr rfl

/-- An escape with too few hexadecimal digits is malformed. -/
theorem hexEscape_of_short {count : Nat} {rest : List Char} (h : rest.length < count) :
    hexEscape count rest = ⟨[], true, 1⟩ := by
  have hfew : ((rest.take count).filterMap digitValue?).length ≠ count := by
    have hdigits := List.length_filterMap_le digitValue? (rest.take count)
    rw [List.length_take] at hdigits
    omega
  simp only [hexEscape, if_neg hfew]

/-- The characters that an escape takes after its first one. -/
def tailSize (part : Part) : Nat := part.more - 1

/-- An escape by hexadecimal digits is read in a local way. -/
theorem isLocal_hexEscape (count : Nat) : IsLocal tailSize (hexEscape count) := by
  intro word rest h
  by_cases hcount : count ≤ word.length
  · simp only [hexEscape, List.take_append_of_le_length hcount]
  -- All of the digits would be more than the word holds, so the escape is malformed on both sides.
  · rw [hexEscape_of_short (Nat.lt_of_not_le hcount)]
    rcases hexEscape_more count (word ++ rest) with hmore | hmalformed
    · rw [tailSize, hmore] at h
      omega
    · exact hmalformed.symm

/-- An escape by octal digits is read in a local way. -/
theorem isLocal_octalEscape (first : Char) : IsLocal tailSize (octalEscape first) := by
  intro word rest h
  -- The word may end before the second digit, if there is none.
  have hdigits : (word.take 2).takeWhile (fun c => (digitInRadix? 8 c).isSome) =
      ((word ++ rest).take 2).takeWhile fun c => (digitInRadix? 8 c).isSome := by
    have htwo := (List.takeWhile_prefix (l := (word ++ rest).take 2)
      fun c => (digitInRadix? 8 c).isSome).length_le
    simp only [tailSize, octalEscape, List.length_cons] at h
    rw [List.length_take] at htwo
    rw [List.take_append] at h htwo ⊢
    refine IsLocal.takeWhile _ _ _ ?_
    rw [List.length_take]
    omega
  simp only [octalEscape, hdigits]

/-- An escape is read in a local way. -/
theorem isLocal_escape (q : Quoting) (next : Char) : IsLocal tailSize (q.escape next) := by
  unfold escape
  cases letterEscape? next with
  | some c => exact .const _
  | none =>
    refine .ite (fun _ => .const _) fun _ => .ite (fun _ => ?_) fun _ => ?_
    · have hfeed : (fun rest : List Char =>
          (⟨[], false, if rest.head? = some '\n' then 2 else 1⟩ : Part)) =
          fun rest => if rest.head? = some '\n' then ⟨[], false, 2⟩ else ⟨[], false, 1⟩ := by
        funext rest
        split <;> rfl
      rw [hfeed]
      exact .testHead (P := (· = some '\n')) (.const _) (.const _) (Option.some_ne_none _).symm
        fun _ _ => Nat.le_refl 1
    refine .ite (fun _ => isLocal_octalEscape next) fun _ => ?_
    refine .ite (fun _ => isLocal_hexEscape 2) fun _ => ?_
    refine .ite (fun _ => isLocal_hexEscape 4) fun _ => ?_
    exact .ite (fun _ => isLocal_hexEscape 8) fun _ => .const _

/-- An escape takes its first character. -/
theorem one_le_escape (q : Quoting) (next : Char) (rest : List Char) :
    1 ≤ (q.escape next rest).more := by
  have hhex : ∀ count, 1 ≤ (hexEscape count rest).more := by
    intro count
    rcases hexEscape_more count rest with hmore | hmalformed
    · omega
    · rw [hmalformed]
  unfold escape
  cases letterEscape? next with
  | some c => exact Nat.le_refl 1
  | none =>
    dsimp only
    split
    · exact Nat.le_refl 1
    split
    · dsimp only
      split <;> omega
    split
    · exact Nat.succ_pos _
    split
    · exact hhex 2
    split
    · exact hhex 4
    split
    · exact hhex 8
    · exact Nat.le_refl 1

/-- A step at a backslash is read in a local way. -/
theorem isLocal_step_backslash (q : Quoting) : IsLocal StringStep.more (q.step '\\') := by
  have hcons : ∀ next rest, q.step '\\' (next :: rest) =
      .part (if q.raw then ⟨['\\', next], false, 1⟩ else q.escape next rest) := by
    intro next rest
    cases hraw : q.raw <;> simp [step, hraw]
  intro word rest h
  cases word with
  | nil =>
    cases rest with
    | nil => rfl
    | cons next rest =>
      have hone : 1 ≤ (q.step '\\' (next :: rest)).more := by
        rw [hcons]
        cases q.raw with
        | true => exact Nat.le_refl 1
        | false => exact one_le_escape q next rest
      exact absurd h (Nat.not_le_of_lt hone)
  | cons next word =>
    rw [List.cons_append, hcons] at h ⊢
    rw [hcons]
    cases hraw : q.raw with
    | true => rfl
    | false =>
      rw [hraw] at h
      exact congrArg StringStep.part (isLocal_escape q next word rest (Nat.sub_le_of_le_add h))

/-- A step is read in a local way. -/
theorem isLocal_step (q : Quoting) (c : Char) : IsLocal StringStep.more (q.step c) := by
  by_cases hback : c = '\\'
  · rw [hback]
    exact isLocal_step_backslash q
  unfold step
  simp only [if_neg hback]
  refine .ite (fun _ => .const _) fun _ => ?_
  refine .ite (fun _ => .ite (fun _ => .const _) fun _ => ?_) fun _ => .const _
  exact .testTake [q.quote, q.quote] (.const _) (.const _) fun _ => Nat.le_refl 2

/-- A string keeps the characters that it has taken. -/
theorem size_le_readBody (q : Quoting) (sofar : StringBody) (text : List Char) :
    sofar.size ≤ (q.readBody sofar text).size := by
  obtain ⟨-, n, hn⟩ := readBody_extends q sofar text
  rw [hn]
  exact Nat.le_add_right _ n

/-- A string that takes nothing more is at its end, or at that of its line. -/
theorem readBody_nil {q : Quoting} {sofar : StringBody} {rest : List Char}
    (h : (q.readBody sofar rest).size ≤ sofar.size) :
    q.readBody sofar [] = q.readBody sofar rest := by
  cases rest with
  | nil => rfl
  | cons c rest =>
    -- Only a line end that the string may not hold takes no character.
    cases hstep : q.step c rest with
    | close more =>
      rw [readBody_of_close hstep] at h
      dsimp only at h
      omega
    | broken =>
      rw [readBody_of_broken hstep]
      rw [readBody]
    | part part =>
      rw [readBody_of_part hstep] at h
      have hlong : sofar.size + 1 + part.more ≤ sofar.size :=
        Nat.le_trans (size_le_readBody q (sofar.add part) _) h
      omega

/-- A string is what it would be if the text ended behind it. -/
theorem readBody_append {q : Quoting} {sofar : StringBody} {word rest : List Char}
    (h : (q.readBody sofar (word ++ rest)).size ≤ sofar.size + word.length) :
    q.readBody sofar word = q.readBody sofar (word ++ rest) := by
  -- A part may take many characters, so the induction is on how many are left.
  induction hlength : word.length using Nat.strong_induction_on generalizing word sofar with
  | _ length ih =>
  subst hlength
  cases word with
  | nil => exact readBody_nil h
  | cons c word =>
    rw [List.cons_append, List.length_cons] at h
    rw [List.cons_append]
    cases hstep : q.step c (word ++ rest) with
    | close more =>
      rw [readBody_of_close hstep] at h ⊢
      dsimp only at h
      have hword := isLocal_step q c word rest (by rw [hstep, StringStep.more]; omega)
      rw [readBody_of_close (hword.trans hstep)]
    | broken =>
      have hword := isLocal_step q c word rest (by rw [hstep]; exact Nat.zero_le _)
      rw [readBody_of_broken hstep, readBody_of_broken (hword.trans hstep)]
    | part part =>
      rw [readBody_of_part hstep] at h ⊢
      have hlong : sofar.size + 1 + part.more ≤ sofar.size + (word.length + 1) :=
        Nat.le_trans (size_le_readBody q (sofar.add part) _) h
      have hmore : part.more ≤ word.length := by omega
      have hword := isLocal_step q c word rest (by rw [hstep]; exact hmore)
      rw [readBody_of_part (hword.trans hstep)]
      rw [List.drop_append_of_le_length hmore] at h ⊢
      have hsize : (sofar.add part).size = sofar.size + 1 + part.more := rfl
      refine ih _ ?_ ?_ rfl
      · rw [List.length_drop, List.length_cons]
        omega
      · rw [List.length_drop]
        omega

end Quoting

namespace StringLiteral

variable {letters : List StringFlag} {quote : Char} {word rest : List Char}

/-- A string is opened by a quote, at least. -/
theorem one_le_opening (quote : Char) (after : List Char) : 1 ≤ opening quote after := by
  unfold opening
  split
  · exact Nat.succ_pos 2
  · exact Nat.le_refl 1

/-- A string takes its opening quotes. -/
theorem opening_le_read (letters : List StringFlag) (quote : Char) (after : List Char) :
    opening quote after ≤ (read letters quote (quote :: after)).2 := by
  rw [read_eq, body]
  exact Quoting.size_le_readBody _ ⟨"", false, false, opening quote after⟩ _

/-- Whether three quotes open a string is seen in a local way. -/
theorem isLocal_isTriple (quote : Char) :
    IsLocal (fun triple => if triple then 2 else 0) (isTriple quote) := by
  have htest : isTriple quote = fun after =>
      if after.take 2 = [quote, quote] then true else false := by
    funext after
    have hthree : isTriple quote after = (quote :: after.take 2 == quote :: [quote, quote]) := rfl
    rw [hthree]
    split
    · rename_i htwo
      rw [htwo, beq_self_eq_true]
    · rename_i htwo
      exact beq_eq_false_iff_ne.2 fun heq => htwo (List.cons.inj heq).2
  rw [htest]
  exact .testTake [quote, quote] (.const _) (.const _) fun _ => Nat.le_refl 2

/-- A string is what it would be if the text ended behind it. -/
theorem read_append (h : (read letters quote (quote :: (word ++ rest))).2 ≤ word.length + 1) :
    read letters quote (quote :: word) = read letters quote (quote :: (word ++ rest)) := by
  have hopening := Nat.le_trans (opening_le_read letters quote (word ++ rest)) h
  have htriple : isTriple quote word = isTriple quote (word ++ rest) := by
    refine isLocal_isTriple quote word rest ?_
    unfold opening at hopening
    cases htriple : isTriple quote (word ++ rest) with
    | true =>
      rw [htriple] at hopening
      exact Nat.le_of_succ_le_succ hopening
    | false => exact Nat.zero_le _
  have hbody : body letters quote word = body letters quote (word ++ rest) := by
    have hsize : (body letters quote (word ++ rest)).size ≤ word.length + 1 := h
    unfold body quoting at hsize ⊢
    have hsame : opening quote word = opening quote (word ++ rest) := by
      rw [opening, htriple, opening]
    rw [htriple, hsame]
    rw [← List.cons_append] at hsize ⊢
    rw [List.drop_append_of_le_length hopening] at hsize ⊢
    refine Quoting.readBody_append ?_
    rw [List.length_drop, List.length_cons]
    dsimp only
    omega
  rw [read_eq, read_eq, hbody, htriple]

end StringLiteral

/-! ## Pieces -/

namespace Piece

variable {c : Char} {word rest : List Char}

/-- An operator is read in a local way. -/
theorem isLocal_operator? : IsLocal (fun found => (found.map Prod.snd).getD 0) operator? := by
  intro word rest h
  -- The first spelling that fits the longer text fits the word, and those before it fit neither.
  have hlonger : ∀ x : List Char × Operator, x.1.isPrefixOf word = true →
      x.1.isPrefixOf (word ++ rest) = true := by
    intro x hx
    rw [List.isPrefixOf_iff_prefix] at hx ⊢
    exact hx.trans (List.prefix_append word rest)
  refine congrArg (Option.map _) ?_
  cases hfound : operatorSpellings.find? fun x => x.1.isPrefixOf (word ++ rest) with
  | none =>
    rw [List.find?_eq_none] at hfound ⊢
    exact fun x hx hword => hfound x hx (hlonger x hword)
  | some x =>
    have hsize : x.1.length ≤ word.length := by
      simpa [operator?, hfound] using h
    rw [List.find?_eq_some_iff_append] at hfound ⊢
    obtain ⟨hx, earlier, later, hsplit, hearlier⟩ := hfound
    refine ⟨?_, earlier, later, hsplit, fun y hy => ?_⟩
    · rw [List.isPrefixOf_iff_prefix] at hx ⊢
      exact List.prefix_of_prefix_length_le hx (List.prefix_append word rest) hsize
    · have hnot := hearlier y hy
      rw [Bool.not_eq_true', Bool.eq_false_iff] at hnot
      show (!y.1.isPrefixOf word) = true
      rw [Bool.not_eq_true', Bool.eq_false_iff]
      exact fun hword => hnot (hlonger y hword)

/-- A number is read in a local way. -/
theorem isLocal_number (c : Char) : IsLocal SizedPiece.more fun rest => number (c :: rest) := by
  intro word rest h
  have hread := NumberLiteral.isLocal_read (c :: word) rest (Nat.le_add_of_sub_le h)
  simp only [number]
  rw [hread]
  rfl

/-- A string behind a word of letters is read in a local way. -/
theorem ofString_append {letters : List StringFlag} {quote : Char} {front : List Char}
    (h : (ofString front letters quote (word ++ rest)).more ≤ front.length + word.length) :
    ofString front letters quote word = ofString front letters quote (word ++ rest) := by
  have hsize :
      (StringLiteral.read letters quote (quote :: (word ++ rest))).2 ≤ word.length + 1 := by
    simp only [ofString] at h
    omega
  rw [ofString, ofString, StringLiteral.read_append hsize]

/-- A word takes its letters. -/
theorem more_ofWord (word : List Char) : (ofWord word).more = word.length - 1 := by
  unfold ofWord
  split <;> rfl

/-- A string behind letters is what it would be if the text ended behind it. -/
theorem wordOrString_append_of_quote {text rest front after : List Char} {quote : Char}
    {letters : List StringFlag} (hfront : ∀ d ∈ front, Letter.continuesWord d = true)
    (htext : text ++ rest = front ++ quote :: after) (hquote : quote = '"' ∨ quote = '\'')
    (hletters : StringLiteral.letterFlags? front = some letters)
    (h : (wordOrString (text ++ rest)).more + 1 ≤ text.length) :
    wordOrString text = wordOrString (text ++ rest) := by
  rw [htext, wordOrString_of_quote hfront hquote hletters] at h ⊢
  -- The quote is in the text, since the string takes it.
  have hone : 1 ≤ (StringLiteral.read letters quote (quote :: after)).2 :=
    Nat.le_trans (StringLiteral.one_le_opening quote after)
      (StringLiteral.opening_le_read letters quote after)
  have hshort : (front ++ [quote]).length ≤ text.length := by
    simp only [ofString] at h
    rw [List.length_append, List.length_singleton]
    omega
  have hlong : front ++ [quote] <+: text ++ rest :=
    ⟨after, by rw [htext, List.append_assoc, List.singleton_append]⟩
  obtain ⟨within, rfl⟩ :=
    List.prefix_of_prefix_length_le hlong (List.prefix_append text rest) hshort
  have hwithin : front ++ [quote] ++ within = front ++ quote :: within := by
    rw [List.append_assoc, List.singleton_append]
  rw [hwithin] at h htext ⊢
  obtain rfl : within ++ rest = after := by
    rw [List.append_assoc, List.cons_append] at htext
    exact (List.cons.inj (List.append_cancel_left htext)).2
  rw [wordOrString_of_quote hfront hquote hletters]
  refine ofString_append ?_
  rw [List.length_append, List.length_cons] at h
  omega

/-- A word is what it would be if the text ended behind it. -/
theorem wordOrString_append_of_word {text rest : List Char}
    (hnone : ∀ quote after, (text ++ rest).drop
        ((text ++ rest).takeWhile Letter.continuesWord).length = quote :: after →
      quote = '"' ∨ quote = '\'' →
      StringLiteral.letterFlags? ((text ++ rest).takeWhile Letter.continuesWord) = none)
    (h : (wordOrString (text ++ rest)).more + 1 ≤ text.length) :
    wordOrString text = wordOrString (text ++ rest) := by
  rw [wordOrString_of_not_quote hnone, more_ofWord] at h
  have hword : text.takeWhile Letter.continuesWord =
      (text ++ rest).takeWhile Letter.continuesWord :=
    IsLocal.takeWhile Letter.continuesWord text rest (by omega)
  rw [wordOrString_of_not_quote hnone, wordOrString_of_not_quote, hword]
  intro quote after hafter hquote
  rw [hword] at hafter ⊢
  refine hnone quote (after ++ rest) ?_ hquote
  rw [List.drop_append_of_le_length (by omega), hafter, List.cons_append]

/-- A word or a string is read in a local way. -/
theorem isLocal_wordOrString (c : Char) :
    IsLocal SizedPiece.more fun rest => wordOrString (c :: rest) := by
  intro word rest h
  dsimp only at h ⊢
  rw [← List.cons_append] at h ⊢
  replace h : (wordOrString (c :: word ++ rest)).more + 1 ≤ (c :: word).length := Nat.succ_le_succ h
  generalize c :: word = text at h ⊢
  by_cases hopens : ∃ quote after letters, (text ++ rest).drop
      ((text ++ rest).takeWhile Letter.continuesWord).length = quote :: after ∧
      (quote = '"' ∨ quote = '\'') ∧
      StringLiteral.letterFlags? ((text ++ rest).takeWhile Letter.continuesWord) = some letters
  · obtain ⟨quote, after, letters, hafter, hquote, hletters⟩ := hopens
    have htext : text ++ rest =
        (text ++ rest).takeWhile Letter.continuesWord ++ quote :: after := by
      rw [← hafter, List.prefix_iff_eq_append.1 (List.takeWhile_prefix _)]
    exact wordOrString_append_of_quote (fun d hd => List.mem_takeWhile_imp hd) htext hquote hletters
      h
  · refine wordOrString_append_of_word (fun quote after hafter hquote => ?_) h
    by_contra hletters
    obtain ⟨letters, hletters⟩ := Option.ne_none_iff_exists'.1 hletters
    exact hopens ⟨quote, after, letters, hafter, hquote, hletters⟩

/-- A point is read in a local way. -/
theorem isLocal_at_point : IsLocal SizedPiece.more (Piece.at '.') := by
  have hpoint : Piece.at '.' = fun rest =>
      if (rest.head?.map Char.isDigit).getD false = true then number ('.' :: rest)
      else if rest.take 2 = ['.', '.'] then ⟨.lexeme .ellipsis, 2⟩ else ⟨.lexeme .dot, 0⟩ := rfl
  rw [hpoint]
  refine .testHead (P := fun first => (first.map Char.isDigit).getD false = true)
    (isLocal_number '.')
    (.testTake ['.', '.'] (.const _) (.const _) fun _ => Nat.le_refl 2) (by decide) fun text h => ?_
  exact Nat.le_sub_of_add_le (NumberLiteral.two_le_read h)

/-- A backslash is read in a local way. -/
theorem isLocal_at_backslash : IsLocal SizedPiece.more (Piece.at '\\') := by
  have hback : Piece.at '\\' = fun rest =>
      if rest.take 2 = ['\r', '\n'] then ⟨.lineJoin, 2⟩
      else if rest.head? = some '\n' ∨ rest.head? = some '\r' then ⟨.lineJoin, 1⟩
      else ⟨.lexeme .invalid, 0⟩ := by
    funext rest
    have hoperator : operator? ('\\' :: rest) = none :=
      operator?_eq_none rest (by simp [operatorHeads])
    have hletter : Letter.startsWord '\\' = false := rfl
    simp [Piece.at, punctuation?, hoperator, hletter]
  rw [hback]
  refine .testTake ['\r', '\n'] (.const _) ?_ fun _ => Nat.le_refl 2
  exact .testHead (P := fun first => first = some '\n' ∨ first = some '\r') (.const _) (.const _)
    (by simp) fun _ _ => Nat.le_refl 1

/-- What stands at the front of a text is what it would be if the text ended behind it. -/
theorem isLocal_at (c : Char) : IsLocal SizedPiece.more (Piece.at c) := by
  by_cases hpoint : c = '.'
  · rw [hpoint]
    exact isLocal_at_point
  by_cases hback : c = '\\'
  · rw [hback]
    exact isLocal_at_backslash
  have hfirst : ∀ d, ¬ (none : Option Char) = some d := fun d => (Option.some_ne_none d).symm
  unfold Piece.at
  simp only [hback, hpoint, decide_false, Bool.false_and, Bool.false_eq_true, if_false]
  refine .ite (fun _ => .const _) fun _ => .ite (fun _ => .const _) fun _ => ?_
  refine .ite (fun _ => ?_) fun _ => .ite (fun _ => ?_) fun _ => ?_
  · exact .testHead (P := (· = some '\n')) (.const _) (.const _) (hfirst _) fun _ _ => Nat.le_refl 1
  · exact fun word rest h => congrArg (fun body => SizedPiece.mk .comment body.length)
      (IsLocal.takeWhile _ word rest h)
  cases punctuation? c with
  | some mark => exact .const _
  | none =>
    dsimp only
    refine .ite (fun _ => ?_) fun _ => ?_
    · exact .testHead (P := (· = some '=')) (.const _) (.const _) (hfirst _)
        fun _ _ => Nat.le_refl 1
    refine .testHead (P := fun first => (decide (c = '-') && decide (first = some '>')) = true)
      (.const _) ?_ (by simp) fun _ _ => Nat.le_refl 1
    refine .ite (fun _ => isLocal_number c) fun _ => .ite (fun _ => ?_) fun _ => ?_
    · intro word rest h
      have hread : StringLiteral.read [] c (c :: word) =
          StringLiteral.read [] c (c :: (word ++ rest)) :=
        StringLiteral.read_append (Nat.le_add_of_sub_le h)
      dsimp only
      rw [hread]
    -- The operator, if there is one, is the same on the word alone.
    intro word rest h
    dsimp only at h ⊢
    have hoperator := isLocal_operator? (c :: word) rest
    rw [List.cons_append] at hoperator
    cases hlonger : operator? (c :: (word ++ rest)) with
    | some found =>
      rw [hlonger] at hoperator h
      rw [hoperator (Nat.le_add_of_sub_le h)]
    | none =>
      rw [hlonger] at hoperator h
      rw [hoperator (Nat.zero_le _)]
      dsimp only at h ⊢
      exact IsLocal.ite (fun _ => isLocal_wordOrString c) (fun _ => .const _) word rest h

end Piece

/-! ## Tokens -/

/-- The tokens of a text that is one lexeme of so many bytes: the lexeme, the implied end of the
line and the end of the text. -/
def Tokens.ofLexeme (x : Lexeme) (length : Nat) : List Token :=
  [⟨⟨0, length⟩, x⟩, ⟨⟨length, 0⟩, .newLine .implied⟩, ⟨⟨length, 0⟩, .endOfStream⟩]

/-- A text that is one lexeme has its tokens. -/
theorem Tokens.ofText_lexeme {c : Char} {rest : List Char} {x : Lexeme} {more : Nat}
    (h : Piece.at c rest = ⟨.lexeme x, more⟩) (hall : rest.length ≤ more) :
    ofText (c :: rest) = ofLexeme x (byteLength (c :: rest)) := by
  rw [ofText, Layout.readFrom, h]
  dsimp only
  rw [List.take_of_length_le hall, List.drop_of_length_le hall,
    Layout.absorb_lexeme rfl (.inr rfl), Layout.readFrom]
  simp [Layout.finish, Layout.push, Layout.closeBlocks, Layout.initial, ofLexeme]

/-- A token that is written in a text is what its characters are by themselves. -/
theorem Tokens.ofText_slice {text : List Char} {t : Token} (ht : t ∈ ofText text)
    (hwritten : t.lexeme.IsWritten) :
    ∃ before word after, text = before ++ word ++ after ∧ byteLength before = t.start ∧
      byteLength (before ++ word) = t.stop ∧ ofText word = ofLexeme t.lexeme t.range.length := by
  obtain ⟨before, c, rest, more, htext, hpiece, hrange⟩ := standsIn_of_mem ht hwritten
  have hstart : t.start = byteLength before := congrArg TextRange.start hrange
  have hlength : t.range.length = byteLength (c :: rest.take more) :=
    congrArg TextRange.length hrange
  refine ⟨before, c :: rest.take more, rest.drop more, ?_, hstart.symm, ?_, ?_⟩
  · rw [htext, List.append_assoc, List.cons_append, List.take_append_drop]
  · rw [byteLength_append, ← hstart, ← hlength]
    rfl
  rw [hlength]
  rcases Nat.le_total rest.length more with hshort | hlong
  · rw [List.take_of_length_le hshort]
    exact ofText_lexeme hpiece hshort
  · -- What stands there takes just the word, so it is the same on the word.
    have hword : Piece.at c (rest.take more) = Piece.at c rest := by
      have hlocal := Piece.isLocal_at c (rest.take more) (rest.drop more)
      rw [List.take_append_drop] at hlocal
      refine hlocal ?_
      rw [hpiece, List.length_take_of_le hlong]
    exact ofText_lexeme (hword.trans hpiece) (List.length_take_le _ _)

/-- A number in an open parenthesis, with what looks like a power of ten behind it. -/
theorem Tokens.ofText_slice_number :
    (⟨⟨1, 1⟩, .number ⟨.int 1, true, false⟩⟩ : Token) ∈ ofText ['(', '1', 'e', '+', 'x'] ∧
      ∃ before word after, ['(', '1', 'e', '+', 'x'] = before ++ word ++ after ∧
        byteLength before = 1 ∧ byteLength (before ++ word) = 2 ∧
        ofText word = ofLexeme (.number ⟨.int 1, true, false⟩) 1 := by
  have hmem : (⟨⟨1, 1⟩, .number ⟨.int 1, true, false⟩⟩ : Token) ∈
      ofText ['(', '1', 'e', '+', 'x'] := by decide +kernel
  exact ⟨hmem, ofText_slice hmem trivial⟩

end TypeProbe
