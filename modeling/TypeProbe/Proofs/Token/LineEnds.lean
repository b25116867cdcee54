import TypeProbe.Proofs.Flags
import TypeProbe.Proofs.Token.Balance
import TypeProbe.Proofs.Token.FirstLine
import TypeProbe.Proofs.Token.Readings

/-!
# Line ends by one character and by two

A text with line feeds and the same text with a carriage return before each of them have the same
tokens, but for the line ends in them: the `newLine` tokens say which characters ended the line, and
strings hold the line ends as they are written (`Lexeme.Alike`). `Tokens.ofText_withReturns` proves
this of every text but one kind, and no more can be proved: a raw string that may stand on one line
only takes a line feed with the backslash before it, but of two characters takes the first, and
breaks off at the second.

What is read on a line does not depend on how the line ends (`Piece.plain_or_opensString`). Line
ends are met by the layout, in joined lines and inside of strings, where one step of reading becomes
one or two (`Quoting.GoesOn`); from there on the two readings are at the same place again
(`Quoting.Meets`).
-/

namespace TypeProbe

/-- A text with a carriage return before each line feed. -/
def withReturns (text : List Char) : List Char :=
  text.flatMap fun c => if c = '\n' then ['\r', '\n'] else [c]

/-- Two texts of which the second has a carriage return before some line feeds of the first. -/
inductive Returned : List Char → List Char → Prop where
  | nil : Returned [] []
  | cons (c : Char) {value value' : List Char} (h : Returned value value') :
    Returned (c :: value) (c :: value')
  | lineEnd {value value' : List Char} (h : Returned value value') :
    Returned ('\n' :: value) ('\r' :: '\n' :: value')

/-- A line feed becomes a carriage return with a line feed; the end of the text stays. -/
def NewLineKind.withReturn : NewLineKind → NewLineKind
  | .lineFeed => .carriageReturnLineFeed
  | kind => kind

/-- Two lexemes that are the same but for the line ends in them: ends of lines are by two characters
where they were by one, and the values of strings may be. -/
inductive Lexeme.Alike : Lexeme → Lexeme → Prop where
  | newLine (kind : NewLineKind) : Alike (.newLine kind) (.newLine kind.withReturn)
  | string {literal literal' : StringLiteral} (flags : literal'.flags = literal.flags)
    (value : Returned literal.value.toList literal'.value.toList)
    (escapes : literal'.hasUnescapeErrors = literal.hasUnescapeErrors) :
    Alike (.string literal) (.string literal')
  | same {x : Lexeme} (h : x.kind ≠ .newLine) : Alike x x

/-- A raw string that may stand on one line only and holds a line feed all the same, which is one
that comes behind a backslash. -/
def StringLiteral.JoinsRaw (literal : StringLiteral) : Prop :=
  literal.flags.has .raw = true ∧ literal.flags.has .triplicate = false ∧
    '\n' ∈ literal.value.toList

section WithReturns

variable {c : Char} {line text : List Char} {n : Nat}

@[simp] theorem withReturns_nil : withReturns [] = [] := rfl

@[simp] theorem withReturns_cons_lineFeed (text : List Char) :
    withReturns ('\n' :: text) = '\r' :: '\n' :: withReturns text := rfl

/-- Other characters stay. -/
theorem withReturns_cons (h : c ≠ '\n') (text : List Char) :
    withReturns (c :: text) = c :: withReturns text := by
  simp [withReturns, h]

/-- Lines stay. -/
theorem withReturns_append (h : ∀ d ∈ line, ¬ IsLineEnd d) (text : List Char) :
    withReturns (line ++ text) = line ++ withReturns text := by
  induction line with
  | nil => rfl
  | cons d line ih =>
    have hd : d ≠ '\n' := fun heq => h d List.mem_cons_self (.inl heq)
    rw [List.cons_append, withReturns_cons hd, ih fun e he => h e (List.mem_cons_of_mem _ he)]
    rfl

/-- The first line stays. -/
theorem firstLine_withReturns (text : List Char) :
    firstLine (withReturns text) = firstLine text := by
  induction text with
  | nil => rfl
  | cons c text ih =>
    by_cases hfeed : c = '\n'
    · rw [hfeed, withReturns_cons_lineFeed, firstLine_cons_of_isLineEnd (.inr rfl),
        firstLine_cons_of_isLineEnd (.inl rfl)]
    · rw [withReturns_cons hfeed]
      by_cases hreturn : c = '\r'
      · rw [firstLine_cons_of_isLineEnd (.inr hreturn), firstLine_cons_of_isLineEnd (.inr hreturn)]
      · have hc : ¬ IsLineEnd c := fun h => h.elim hfeed hreturn
        rw [firstLine_cons hc, firstLine_cons hc, ih]

/-- A text that starts with no line end starts with the same character. -/
theorem head?_withReturns (h : ∀ d ∈ text.head?, ¬ IsLineEnd d) :
    text.head? = (withReturns text).head? := by
  cases text with
  | nil => rfl
  | cons d text =>
    rw [withReturns_cons fun hd => h d rfl (.inl hd)]
    rfl

/-- What comes behind some characters of the first line. -/
theorem drop_withReturns (h : n ≤ (firstLine text).length) :
    (withReturns text).drop n = withReturns (text.drop n) := by
  have hline : ∀ d ∈ text.take n, ¬ IsLineEnd d := fun d hd => not_isLineEnd_of_mem_take h hd
  have hlength : (text.take n).length = n := by
    rw [List.length_take, Nat.min_eq_left (h.trans (firstLine_isPrefix text).length_le)]
  conv_lhs => rw [← List.take_append_drop n text, withReturns_append hline]
  rw [List.drop_left' hlength]

end WithReturns

namespace Returned

variable {value value' more more' : List Char}

/-- A text stands beside itself. -/
theorem refl (value : List Char) : Returned value value := by
  induction value with
  | nil => exact .nil
  | cons c value ih => exact .cons c ih

/-- Texts may be put together. -/
theorem append (h : Returned value value') (hmore : Returned more more') :
    Returned (value ++ more) (value' ++ more') := by
  induction h with
  | nil => exact hmore
  | cons c _ ih => exact .cons c ih
  | lineEnd _ ih => exact .lineEnd ih

/-- A carriage return at the end was there before. -/
theorem mem_of_getLast? (h : Returned value value') (hlast : value'.getLast? = some '\r') :
    '\r' ∈ value := by
  induction h with
  | nil => cases hlast
  | @cons c value value' h ih =>
    cases h with
    | nil => simpa using Eq.symm hlast
    | cons d h => exact List.mem_cons_of_mem c (ih (by rwa [List.getLast?_cons_cons] at hlast))
    | lineEnd h => exact List.mem_cons_of_mem c (ih (by rwa [List.getLast?_cons_cons] at hlast))
  | @lineEnd value value' h ih =>
    rw [List.getLast?_cons_cons] at hlast
    cases h with
    | nil => cases hlast
    | cons d h => exact List.mem_cons_of_mem _ (ih (by rwa [List.getLast?_cons_cons] at hlast))
    | lineEnd h => exact List.mem_cons_of_mem _ (ih (by rwa [List.getLast?_cons_cons] at hlast))

end Returned

/-- The values of strings that are alike differ in their line ends only. -/
theorem Lexeme.Alike.returned {literal literal' : StringLiteral}
    (h : Alike (.string literal) (.string literal')) :
    Returned literal.value.toList literal'.value.toList := by
  cases h with
  | string flags value escapes => exact value
  | same h => exact .refl _

/-! ## Strings -/

/-- Two strings read so far that differ in the line ends of their values and in their sizes. -/
structure StringBody.Alike (b b' : StringBody) : Prop where
  /-- The values differ in their line ends. -/
  value : Returned b.value.toList b'.value.toList
  /-- The escapes are malformed in both or in none. -/
  malformed : b'.malformed = b.malformed
  /-- The quotes are missing in both or in none. -/
  unterminated : b'.unterminated = b.unterminated

namespace Quoting

variable {q : Quoting} {c : Char} {rest text : List Char} {sofar sofar' : StringBody}

/-- Two readings of strings have come to values that are alike and to the same place. -/
def Meets (sofar sofar' b b' : StringBody) (text : List Char) : Prop :=
  b.Alike b' ∧ ∃ n n', b.size = sofar.size + n ∧ b'.size = sofar'.size + n' ∧
    (withReturns text).drop n' = withReturns (text.drop n)

/-- Readings meet if they do after so many characters of each. -/
theorem Meets.behind {b b' next next' : StringBody} {m m' : Nat}
    (h : Meets next next' b b' (text.drop m)) (hsize : next.size = sofar.size + m)
    (hsize' : next'.size = sofar'.size + m')
    (hdrop : (withReturns text).drop m' = withReturns (text.drop m)) :
    Meets sofar sofar' b b' text := by
  obtain ⟨halike, n, n', hn, hn', hrest⟩ := h
  refine ⟨halike, m + n, m' + n', by omega, by omega, ?_⟩
  rw [← List.drop_drop, hdrop, hrest, List.drop_drop]

/-- A step of a raw string adds the characters that it takes. -/
theorem value_of_raw {part : Part} (hraw : q.raw = true) (h : q.step c rest = .part part) :
    part.value = c :: rest.take part.more := by
  unfold step at h
  split_ifs at h with hend hback
  · subst hback
    cases rest with
    | nil =>
      obtain rfl := StringStep.part.inj h
      rfl
    | cons next rest =>
      obtain rfl := StringStep.part.inj h
      rfl
  all_goals
    obtain rfl := StringStep.part.inj h
    rfl

/-- A raw string holds the line feed behind a backslash. -/
theorem mem_of_joinRaw (hraw : q.raw = true) (rest : List Char) :
    '\n' ∈ (q.readBody sofar ('\\' :: '\n' :: rest)).value.toList := by
  have hstep : q.step '\\' ('\n' :: rest) = .part ⟨['\\', '\n'], false, 1⟩ := by
    simp [step, hraw]
  obtain ⟨⟨value, hvalue⟩, -⟩ := readBody_extends q (sofar.add ⟨['\\', '\n'], false, 1⟩) rest
  rw [readBody_of_part hstep, List.drop_succ_cons, List.drop_zero, hvalue]
  simp

/-- A step of the first reading leads to a place that one or two steps of the second one lead to. -/
structure GoesOn (q : Quoting) (sofar' : StringBody) (c : Char) (rest : List Char)
    (sofar : StringBody) (part : Part) (next' : StringBody) (m' : Nat) : Prop where
  /-- The step of the first reading. -/
  step : q.step c rest = .part part
  /-- The second reading comes to the same place. -/
  reads : q.readBody sofar' (withReturns (c :: rest)) =
    q.readBody next' (withReturns (rest.drop part.more))
  /-- What has been read is alike. -/
  alike : (sofar.add part).Alike next'
  /-- How many characters the second reading takes. -/
  size : next'.size = sofar'.size + m'
  /-- They lead to the same place. -/
  drop : (withReturns (c :: rest)).drop m' = withReturns (rest.drop part.more)

/-- A line feed is read as a line end by one character, and as one by two. -/
theorem lineFeed_withReturns (hquote : ¬ IsLineEnd q.quote) (h : sofar.Alike sofar')
    (htriple : q.triple = true) (rest : List Char) :
    GoesOn q sofar' '\n' rest sofar ⟨['\n'], false, 0⟩
      ((sofar'.add ⟨['\r'], false, 0⟩).add ⟨['\n'], false, 0⟩) 2 := by
  have hstep := fun c rest hc => @step_of_isLineEnd q c rest hquote hc
  simp only [htriple, if_true] at hstep
  refine ⟨hstep '\n' rest (.inl rfl), ?_, ⟨?_, ?_, h.unterminated⟩, rfl, rfl⟩
  · rw [withReturns_cons_lineFeed, readBody_of_part (hstep '\r' _ (.inr rfl)), List.drop_zero,
      readBody_of_part (hstep '\n' _ (.inl rfl))]
    rfl
  · simpa using h.value.append (.lineEnd .nil)
  · simp [StringBody.add, h.malformed]

/-- A backslash at the end of a line of a raw string is read with the first character of the line
end, and the line end goes on if the string may hold it. -/
theorem joinRaw_withReturns (hquote : ¬ IsLineEnd q.quote) (h : sofar.Alike sofar')
    (hraw : q.raw = true) (htriple : q.triple = true) (rest : List Char) :
    GoesOn q sofar' '\\' ('\n' :: rest) sofar ⟨['\\', '\n'], false, 1⟩
      ((sofar'.add ⟨['\\', '\r'], false, 1⟩).add ⟨['\n'], false, 0⟩) 3 := by
  have hjoin : ∀ d rest, q.step '\\' (d :: rest) = .part ⟨['\\', d], false, 1⟩ := by
    intro d rest
    simp [step, hraw]
  have hstep := @step_of_isLineEnd q '\n' (withReturns rest) hquote (.inl rfl)
  rw [htriple, if_pos rfl] at hstep
  refine ⟨hjoin '\n' rest, ?_, ⟨?_, ?_, h.unterminated⟩, rfl, rfl⟩
  · rw [withReturns_cons (by decide), withReturns_cons_lineFeed, readBody_of_part (hjoin '\r' _),
      List.drop_succ_cons, List.drop_zero, readBody_of_part hstep]
    rfl
  · simpa using h.value.append (.cons '\\' (.lineEnd .nil))
  · simp [StringBody.add, h.malformed]

/-- A backslash at the end of a line of another string takes the whole line end with it. -/
theorem join_withReturns (h : sofar.Alike sofar') (hraw : q.raw = false) (rest : List Char) :
    GoesOn q sofar' '\\' ('\n' :: rest) sofar ⟨[], false, 1⟩ (sofar'.add ⟨[], false, 2⟩) 3 := by
  have hstep : q.step '\\' ('\n' :: rest) = .part ⟨[], false, 1⟩ := by
    simp [step, hraw, escape, letterEscape?]
  have hstep' : q.step '\\' ('\r' :: '\n' :: withReturns rest) = .part ⟨[], false, 2⟩ := by
    simp [step, hraw, escape, letterEscape?]
  refine ⟨hstep, ?_, ⟨?_, ?_, h.unterminated⟩, rfl, rfl⟩
  · rw [withReturns_cons (by decide), withReturns_cons_lineFeed, readBody_of_part hstep']
    rfl
  · simpa using h.value
  · simp [StringBody.add, h.malformed]

/-- Other steps are the same in both texts. -/
theorem step_withReturns (hquote : ¬ IsLineEnd q.quote) (hc : c ≠ '\n')
    (hhead : c = '\\' → ∀ d ∈ rest.head?, ¬ IsLineEnd d) :
    q.step c (withReturns rest) = q.step c rest ∧
      (withReturns (c :: rest)).drop ((q.step c rest).more + 1) =
        withReturns (rest.drop (q.step c rest).more) := by
  obtain ⟨hsame, hmore⟩ := step_firstLine hquote hhead
  have hhead' : c = '\\' → ∀ d ∈ (withReturns rest).head?, ¬ IsLineEnd d := by
    intro hback
    rw [← head?_withReturns fun d hd => hhead hback d hd]
    exact hhead hback
  have hsame' := (step_firstLine hquote hhead').1
  rw [firstLine_withReturns, hsame] at hsame'
  refine ⟨hsame'.symm, ?_⟩
  rw [withReturns_cons hc, List.drop_succ_cons, drop_withReturns hmore]

/-- A part that is the same in both texts is added to both strings. -/
theorem part_withReturns {part : Part} (h : sofar.Alike sofar') (hc : c ≠ '\n')
    (hstep : q.step c rest = .part part) (hsame : q.step c (withReturns rest) = .part part)
    (hdrop : (withReturns (c :: rest)).drop (part.more + 1) = withReturns (rest.drop part.more)) :
    GoesOn q sofar' c rest sofar part (sofar'.add part) (part.more + 1) := by
  refine ⟨hstep, ?_, ⟨?_, congrArg (· || part.malformed) h.malformed, h.unterminated⟩, ?_, hdrop⟩
  · rw [← hdrop, withReturns_cons hc, readBody_of_part hsame, List.drop_succ_cons]
  · simpa using h.value.append (.refl part.value)
  · simp only [StringBody.add]
    omega

/-- Carriage returns before the line feeds of a text change no string of it but in the line ends of
its value, unless the string is raw, may stand on one line only and holds a line feed. -/
theorem readBody_withReturns (hquote : ¬ IsLineEnd q.quote) (htext : '\r' ∉ text)
    (hjoins : q.raw = true → q.triple = false → '\n' ∉ (q.readBody sofar text).value.toList)
    (h : sofar.Alike sofar') :
    Meets sofar sofar' (q.readBody sofar text) (q.readBody sofar' (withReturns text)) text := by
  induction hlength : text.length using Nat.strong_induction_on generalizing text sofar sofar' with
  | _ length ih =>
  subst hlength
  cases text with
  | nil =>
    rw [withReturns_nil, readBody, readBody]
    exact ⟨⟨h.value, h.malformed, rfl⟩, 0, 0, rfl, rfl, rfl⟩
  | cons c rest =>
    have hrest : '\r' ∉ rest := fun hmem => htext (List.mem_cons_of_mem c hmem)
    have hnext : ∀ {part next' m'}, GoesOn q sofar' c rest sofar part next' m' →
        Meets sofar sofar' (q.readBody sofar (c :: rest))
          (q.readBody sofar' (withReturns (c :: rest))) (c :: rest) := by
      intro part next' m' hgo
      rw [readBody_of_part hgo.step] at hjoins ⊢
      have hless : (rest.drop part.more).length < (c :: rest).length := by
        rw [List.length_drop, List.length_cons]
        omega
      have hmeets := ih _ hless (fun hmem => hrest (List.mem_of_mem_drop hmem)) hjoins hgo.alike rfl
      rw [hgo.reads]
      refine Meets.behind (m := part.more + 1) hmeets ?_ hgo.size hgo.drop
      simp only [StringBody.add]
      omega
    by_cases hfeed : c = '\n'
    · subst hfeed
      cases htriple : q.triple with
      | true => exact hnext (lineFeed_withReturns hquote h htriple rest)
      | false =>
        have hstep := fun c rest hc => @step_of_isLineEnd q c rest hquote hc
        simp only [htriple, Bool.false_eq_true, if_false] at hstep
        rw [withReturns_cons_lineFeed, readBody_of_broken (hstep '\n' rest (.inl rfl)),
          readBody_of_broken (hstep '\r' _ (.inr rfl))]
        exact ⟨⟨h.value, h.malformed, rfl⟩, 0, 0, rfl, rfl, rfl⟩
    by_cases hjoin : c = '\\' ∧ rest.head? = some '\n'
    · obtain ⟨rfl, hhead⟩ := hjoin
      obtain ⟨after, rfl⟩ := List.head?_eq_some_iff.1 hhead
      cases hraw : q.raw with
      | true =>
        refine hnext (joinRaw_withReturns hquote h hraw ?_ after)
        by_contra hsingle
        exact hjoins hraw (Bool.eq_false_of_not_eq_true hsingle) (mem_of_joinRaw hraw after)
      | false => exact hnext (join_withReturns h hraw after)
    · have hhead : c = '\\' → ∀ d ∈ rest.head?, ¬ IsLineEnd d := by
        rintro hc d hd (rfl | rfl)
        · exact hjoin ⟨hc, hd⟩
        · exact hrest (List.mem_of_mem_head? hd)
      obtain ⟨hsame, hdrop⟩ := step_withReturns hquote hfeed hhead
      cases hstep : q.step c rest with
      | close more =>
        rw [hstep] at hsame hdrop
        rw [withReturns_cons hfeed, readBody_of_close hstep, readBody_of_close hsame]
        exact ⟨⟨h.value, h.malformed, h.unterminated⟩, more + 1, more + 1, by dsimp only; omega,
          by dsimp only; omega, hdrop⟩
      | broken =>
        rw [hstep] at hsame
        rw [withReturns_cons hfeed, readBody_of_broken hstep, readBody_of_broken hsame]
        exact ⟨⟨h.value, h.malformed, rfl⟩, 0, 0, rfl, rfl, rfl⟩
      | part part =>
        rw [hstep] at hsame hdrop
        exact hnext (part_withReturns h hfeed hstep hsame hdrop)

/-- A raw string holds characters of the text only. -/
theorem mem_of_mem_readBody (hraw : q.raw = true) {d : Char}
    (h : d ∈ (q.readBody sofar text).value.toList) : d ∈ sofar.value.toList ∨ d ∈ text := by
  fun_induction q.readBody sofar text with
  | case1 sofar => exact .inl h
  | case2 sofar c rest more hstep => exact .inl h
  | case3 sofar c rest hstep => exact .inl h
  | case4 sofar c rest part hstep ih =>
    rcases ih h with hmem | hmem
    · rw [String.toList_append, String.toList_ofList, List.mem_append,
        value_of_raw hraw hstep] at hmem
      refine hmem.imp_right fun hmem => ?_
      rcases List.mem_cons.1 hmem with rfl | hmem
      · exact List.mem_cons_self
      · exact List.mem_cons_of_mem c (List.mem_of_mem_take hmem)
    · exact .inr (List.mem_cons_of_mem c (List.mem_of_mem_drop hmem))

/-- With carriage returns before line feeds, a raw string that may stand on one line only breaks off
behind the first one that it holds. -/
theorem getLast?_readBody_withReturns (hquote : ¬ IsLineEnd q.quote) (htext : '\r' ∉ text)
    (hraw : q.raw = true) (htriple : q.triple = false)
    (hjoins : '\n' ∈ (q.readBody sofar text).value.toList) (hsofar : '\n' ∉ sofar.value.toList) :
    (q.readBody sofar' (withReturns text)).value.toList.getLast? = some '\r' := by
  fun_induction q.readBody sofar text generalizing sofar' with
  | case1 sofar => exact absurd hjoins hsofar
  | case2 sofar c rest more hstep => exact absurd hjoins hsofar
  | case3 sofar c rest hstep => exact absurd hjoins hsofar
  | case4 sofar c rest part hstep ih =>
    have hends := fun c rest hc => @step_of_isLineEnd q c rest hquote hc
    simp only [htriple, Bool.false_eq_true, if_false] at hends
    have hrest : '\r' ∉ rest := fun hmem => htext (List.mem_cons_of_mem c hmem)
    have hfeed : c ≠ '\n' := by
      rintro rfl
      rw [hends '\n' rest (.inl rfl)] at hstep
      cases hstep
    by_cases hjoin : c = '\\' ∧ rest.head? = some '\n'
    · obtain ⟨rfl, hhead⟩ := hjoin
      obtain ⟨after, rfl⟩ := List.head?_eq_some_iff.1 hhead
      have hbreak : q.step '\\' ('\r' :: '\n' :: withReturns after) =
          .part ⟨['\\', '\r'], false, 1⟩ := by
        simp [step, hraw]
      rw [withReturns_cons hfeed, withReturns_cons_lineFeed, readBody_of_part hbreak,
        List.drop_succ_cons, List.drop_zero, readBody_of_broken (hends '\n' _ (.inl rfl))]
      simp
    · have hhead : c = '\\' → ∀ d ∈ rest.head?, ¬ IsLineEnd d := by
        rintro hc d hd (rfl | rfl)
        · exact hjoin ⟨hc, hd⟩
        · exact hrest (List.mem_of_mem_head? hd)
      obtain ⟨hsame, hdrop⟩ := step_withReturns hquote hfeed hhead
      have hmore := (step_firstLine hquote hhead).2
      rw [hstep] at hsame hdrop hmore
      simp only [StringStep.more] at hdrop hmore
      rw [withReturns_cons hfeed, readBody_of_part hsame, ← List.drop_succ_cons,
        ← withReturns_cons hfeed, hdrop]
      refine ih (fun hmem => hrest (List.mem_of_mem_drop hmem)) hjoins fun hmem => ?_
      -- What the step takes is on the line.
      rw [String.toList_append, String.toList_ofList, List.mem_append,
        value_of_raw hraw hstep] at hmem
      rcases hmem with hmem | hmem
      · exact hsofar hmem
      rcases List.mem_cons.1 hmem with heq | hmem
      · exact hfeed heq.symm
      · exact not_isLineEnd_of_mem_take hmore hmem (.inl rfl)

end Quoting

namespace StringLiteral

variable {letters : List StringFlag} {quote : Char} {after : List Char}

/-- The flags of a string besides those for its quotes and its end. -/
theorem has_flagsOf (letters : List StringFlag) (quote : Char) (triple unterminated : Bool)
    {g : StringFlag} (hsingle : g ≠ .singleQuote) (hdouble : g ≠ .doubleQuote)
    (hend : g ≠ .unterminated) :
    (flagsOf letters quote triple unterminated).has g =
      (letters.contains g || (triple && StringFlag.triplicate == g)) := by
  have hplace : ∀ f g : StringFlag,
      decide (FlagLabelled.place f = FlagLabelled.place g) = (f == g) := by
    intro f g
    cases f <;> cases g <;> rfl
  have hquote : ((if quote = '\'' then StringFlag.singleQuote else .doubleQuote) == g) = false := by
    split <;> simp [hsingle.symm, hdouble.symm]
  have hlast : (StringFlag.unterminated == g) = false := by simp [hend.symm]
  have hletters : (Flags.ofList letters).has g = letters.contains g := by
    rw [Flags.has_ofList, List.contains_eq_any_beq]
    congr 1
    funext f
    rw [hplace, BEq.comm]
  simp only [flagsOf]
  cases triple <;> cases unterminated <;>
    simp [Flags.has_insert, hplace, hquote, hlast, hletters]

/-- A string is raw, may stand on one line only and holds a line feed if this is so of how it is
read. -/
theorem joinsRaw_read_iff
    (hletters : ∀ f ∈ letters, f ∈ [StringFlag.raw, .unicode, .bytes, .format]) :
    (read letters quote (quote :: after)).1.JoinsRaw ↔
      (quoting letters quote after).raw = true ∧ (quoting letters quote after).triple = false ∧
        '\n' ∈ (body letters quote after).value.toList := by
  have htriplicate : letters.contains .triplicate = false := by
    by_contra h
    rw [Bool.not_eq_false, List.contains_iff_mem] at h
    simpa using hletters _ h
  rw [read_eq, JoinsRaw, has_flagsOf _ _ _ _ (by decide) (by decide) (by decide),
    has_flagsOf _ _ _ _ (by decide) (by decide) (by decide), htriplicate]
  simp [quoting]

/-- Carriage returns before line feeds do not change how a string is delimited and read. -/
theorem quoting_withReturns (hquote : ¬ IsLineEnd quote) :
    isTriple quote (withReturns after) = isTriple quote after ∧
      quoting letters quote (withReturns after) = quoting letters quote after ∧
      opening quote (withReturns after) = opening quote after := by
  have htriple : isTriple quote (withReturns after) = isTriple quote after := by
    rw [← (isTriple_firstLine hquote (withReturns after)).1, firstLine_withReturns,
      (isTriple_firstLine hquote after).1]
  exact ⟨htriple, by rw [quoting, quoting, htriple], by rw [opening, opening, htriple]⟩

/-- Where a string is opened, behind carriage returns before line feeds. -/
theorem drop_opening_withReturns (hquote : ¬ IsLineEnd quote) :
    (quote :: withReturns after).drop (opening quote after) =
      withReturns ((quote :: after).drop (opening quote after)) := by
  have hfeed : quote ≠ '\n' := fun h => hquote (.inl h)
  have hopening := (isTriple_firstLine hquote after).2
  rw [← withReturns_cons hfeed]
  exact drop_withReturns (by rwa [firstLine_cons hquote])

/-- Carriage returns before the line feeds of a text change a string only in the line ends of its
value, unless it is raw, may stand on one line only and holds a line feed. -/
theorem read_withReturns (hquote : ¬ IsLineEnd quote) (htext : '\r' ∉ quote :: after)
    (hletters : ∀ f ∈ letters, f ∈ [StringFlag.raw, .unicode, .bytes, .format])
    (hjoins : ¬ (read letters quote (quote :: after)).1.JoinsRaw) :
    Lexeme.Alike (.string (read letters quote (quote :: after)).1)
        (.string (read letters quote (quote :: withReturns after)).1) ∧
      (quote :: withReturns after).drop (read letters quote (quote :: withReturns after)).2 =
        withReturns ((quote :: after).drop (read letters quote (quote :: after)).2) := by
  rw [joinsRaw_read_iff hletters] at hjoins
  obtain ⟨htriple, hquoting, hopening⟩ := @quoting_withReturns letters quote after hquote
  have hdrop := @drop_opening_withReturns quote after hquote
  have hmeets := @Quoting.readBody_withReturns (quoting letters quote after)
    ((quote :: after).drop (opening quote after)) ⟨"", false, false, opening quote after⟩
    ⟨"", false, false, opening quote after⟩ hquote (fun hmem => htext (List.mem_of_mem_drop hmem))
    (fun hraw hsingle hmem => hjoins ⟨hraw, hsingle, hmem⟩) ⟨.nil, rfl, rfl⟩
  have hbody' : body letters quote (withReturns after) =
      (quoting letters quote after).readBody ⟨"", false, false, opening quote after⟩
        (withReturns ((quote :: after).drop (opening quote after))) := by
    rw [body, hquoting, hopening, hdrop]
  obtain ⟨halike, n, n', hn, hn', hrest⟩ := hmeets
  rw [← hbody'] at halike hn'
  rw [read_eq, read_eq, htriple]
  refine ⟨.string ?_ halike.value halike.malformed, ?_⟩
  · exact congrArg (flagsOf letters quote (isTriple quote after)) halike.unterminated
  · dsimp only
    rw [hn', ← List.drop_drop, hdrop, hrest, List.drop_drop]
    exact congrArg (fun n => withReturns ((quote :: after).drop n)) hn.symm

/-- A raw string that may stand on one line only and holds a line feed is another one with carriage
returns before line feeds. -/
theorem not_alike_read_withReturns (hquote : ¬ IsLineEnd quote) (htext : '\r' ∉ quote :: after)
    (hletters : ∀ f ∈ letters, f ∈ [StringFlag.raw, .unicode, .bytes, .format])
    (hjoins : (read letters quote (quote :: after)).1.JoinsRaw) :
    ¬ Lexeme.Alike (.string (read letters quote (quote :: after)).1)
        (.string (read letters quote (quote :: withReturns after)).1) := by
  obtain ⟨hraw, hsingle, hfeed⟩ := (joinsRaw_read_iff hletters).1 hjoins
  obtain ⟨htriple, hquoting, hopening⟩ := @quoting_withReturns letters quote after hquote
  have htext' : '\r' ∉ (quote :: after).drop (opening quote after) :=
    fun hmem => htext (List.mem_of_mem_drop hmem)
  have hlast : (body letters quote (withReturns after)).value.toList.getLast? = some '\r' := by
    rw [body, hquoting, hopening, drop_opening_withReturns hquote]
    exact Quoting.getLast?_readBody_withReturns hquote htext' hraw hsingle hfeed List.not_mem_nil
  intro halike
  -- The last character of the second value is not in the first one.
  have hmem := halike.returned.mem_of_getLast? hlast
  rcases Quoting.mem_of_mem_readBody hraw hmem with hmem | hmem
  · exact List.not_mem_nil hmem
  · exact htext' hmem

end StringLiteral

/-! ## Pieces and tokens -/

/-- A raw string that may stand on one line only and holds a line feed. -/
def Lexeme.JoinsRaw (x : Lexeme) : Prop := ∃ literal, x = .string literal ∧ literal.JoinsRaw

/-- No other token is a raw string. -/
theorem Lexeme.not_joinsRaw {x : Lexeme} (h : x.kind ≠ .string) : ¬ x.JoinsRaw := by
  rintro ⟨literal, rfl, -⟩
  exact h rfl

/-- Two tokens that are alike, the first of which is no raw string with a line feed on one line. -/
def Token.Alike (t t' : Token) : Prop := t.lexeme.Alike t'.lexeme ∧ ¬ t.lexeme.JoinsRaw

namespace Piece

variable {c : Char} {rest : List Char}

/-- What is behind a string is behind its quotes. -/
theorem drop_ofString {word after : List Char} {letters : List StringFlag} {quote : Char}
    (h : c :: rest = word ++ quote :: after) :
    rest.drop (ofString word letters quote after).more =
      (quote :: after).drop (StringLiteral.read letters quote (quote :: after)).2 := by
  obtain ⟨-, n, hn⟩ := Quoting.readBody_extends (StringLiteral.quoting letters quote after)
    ⟨"", false, false, StringLiteral.opening quote after⟩
    ((quote :: after).drop (StringLiteral.opening quote after))
  have hsize : 1 ≤ (StringLiteral.read letters quote (quote :: after)).2 := by
    rw [StringLiteral.read_eq, StringLiteral.body, hn, StringLiteral.opening]
    split <;> dsimp only <;> omega
  have hmore : (ofString word letters quote after).more + 1 =
      word.length + (StringLiteral.read letters quote (quote :: after)).2 := by
    simp only [ofString]
    omega
  rw [← List.drop_succ_cons, hmore, h, List.drop_append]
  simp

/-- A plain piece stands beside itself. -/
theorem beside_of_isPlain {p : Piece} (h : p.IsPlain)
    (hwritten : ∀ x, p = .lexeme x → x.IsWritten) :
    Piece.Beside (fun x x' => x.Alike x' ∧ ¬ x.JoinsRaw) p p := by
  cases p with
  | blank => exact .skipped (.inl rfl)
  | comment => exact .skipped (.inr (.inl rfl))
  | lineJoin => exact .skipped (.inr (.inr rfl))
  | lineEnd kind => exact h.elim
  | lexeme x =>
    refine .lexeme ⟨.same ?_, ?_⟩ fun _ => rfl
    · have hx := hwritten x rfl
      cases x with
      | newLine kind => exact hx.elim
      | _ => nofun
    · rintro ⟨literal, rfl, -⟩
      exact h.elim

/-- What stands at the front of a text stands there with carriage returns before line feeds, too,
unless it is a raw string with a line feed on one line. -/
theorem at_withReturns (hfeed : c ≠ '\n') (htext : '\r' ∉ c :: rest) :
    (Piece.Beside (fun x x' => x.Alike x' ∧ ¬ x.JoinsRaw)
        (Piece.at c rest).piece (Piece.at c (withReturns rest)).piece ∧
      (withReturns rest).drop (Piece.at c (withReturns rest)).more =
        withReturns (rest.drop (Piece.at c rest).more)) ∨
      ∃ literal literal', (Piece.at c rest).piece = .lexeme (.string literal) ∧ literal.JoinsRaw ∧
        (Piece.at c (withReturns rest)).piece = .lexeme (.string literal') ∧
        ¬ Lexeme.Alike (.string literal) (.string literal') := by
  have hend : ¬ IsLineEnd c := by
    rintro (rfl | rfl)
    · exact hfeed rfl
    · exact htext List.mem_cons_self
  by_cases hjoin : c = '\\'
  · subst hjoin
    left
    by_cases hhead : rest.head? = some '\n'
    · obtain ⟨after, rfl⟩ := List.head?_eq_some_iff.1 hhead
      have hone : Piece.at '\\' ('\n' :: after) = ⟨.lineJoin, 1⟩ := by simp [Piece.at]
      have htwo : Piece.at '\\' ('\r' :: '\n' :: withReturns after) = ⟨.lineJoin, 2⟩ := by
        simp [Piece.at]
      rw [withReturns_cons_lineFeed, hone, htwo]
      exact ⟨.skipped (.inr (.inr rfl)), rfl⟩
    · have hinside : ∀ d ∈ rest.head?, ¬ IsLineEnd d := by
        rintro d hd (rfl | rfl)
        · exact hhead hd
        · exact htext (List.mem_cons_of_mem _ (List.mem_of_mem_head? hd))
      have hinside' := hinside
      rw [head?_withReturns hinside] at hinside'
      rw [at_backslash hinside, at_backslash hinside']
      have hinvalid : ¬ Lexeme.invalid.JoinsRaw := Lexeme.not_joinsRaw (by decide)
      exact ⟨.lexeme ⟨.same (by decide), hinvalid⟩ fun _ => rfl, rfl⟩
  rcases plain_or_opensString hend hjoin rest with hplain | ⟨word, letters, quote, after, hopens⟩
  · rw [hplain.congr hend hjoin (firstLine_withReturns rest)]
    refine .inl ⟨beside_of_isPlain hplain.2.2 fun x hx => ?_, drop_withReturns hplain.2.1⟩
    rcases accounted_at c rest with ⟨y, hy, hwritten⟩ | ⟨hskipped, -⟩
    · obtain rfl := Piece.lexeme.inj (hy.symm.trans hx)
      exact hwritten
    · exact absurd hx (hskipped x)
  · have hquote : ¬ IsLineEnd quote := by
      rcases hopens.isQuote with rfl | rfl <;> simp [IsLineEnd]
    have hfront : c :: withReturns rest = word ++ quote :: withReturns after := by
      rw [← withReturns_cons hfeed, hopens.front, withReturns_append hopens.onLine,
        withReturns_cons fun h => hquote (.inl h)]
    have htext' : '\r' ∉ quote :: after := by
      rw [hopens.front] at htext
      exact fun hmem => htext (List.mem_append_right word hmem)
    rw [hopens.reads rest after hopens.front, hopens.reads _ _ hfront, drop_ofString hfront,
      drop_ofString hopens.front]
    by_cases hjoins : (StringLiteral.read letters quote (quote :: after)).1.JoinsRaw
    · exact .inr ⟨_, _, rfl, hjoins, rfl,
        StringLiteral.not_alike_read_withReturns hquote htext' hopens.areLetters hjoins⟩
    · obtain ⟨halike, hdrop⟩ :=
        StringLiteral.read_withReturns hquote htext' hopens.areLetters hjoins
      refine .inl ⟨.lexeme ⟨halike, ?_⟩ fun _ => rfl, hdrop⟩
      rintro ⟨literal, heq, hliteral⟩
      obtain rfl := Lexeme.string.inj heq
      exact hjoins hliteral

end Piece

namespace Layout

variable {l l' : Layout} {start start' : Nat}

/-- Layout tokens are alike. -/
theorem implied_alike (start start' : Nat) : Implied Token.Alike start start' := by
  intro x hx
  refine ⟨?_, ?_⟩
  · cases x with
    | newLine kind =>
      cases kind with
      | implied => exact .newLine .implied
      | _ => exact hx.elim
    | _ => exact .same nofun
  · rintro ⟨literal, hliteral, -⟩
    cases hliteral
    exact hx

/-- Going on from two states whose last tokens are not alike gives tokens that are not. -/
theorem not_alike_readFrom {t t' : Token} {before before' : List Token}
    (h : ¬ t.lexeme.Alike t'.lexeme) (hlength : before.length = before'.length)
    (htokens : l.tokens = t :: before) (htokens' : l'.tokens = t' :: before')
    (text text' : List Char) :
    ¬ List.Forall₂ (fun t t' => t.lexeme.Alike t'.lexeme) (l.readFrom start text).tokens
      (l'.readFrom start' text').tokens := by
  intro halike
  obtain ⟨more, -, -, hmore⟩ := l.readFrom_tokens start text
  obtain ⟨more', -, -, hmore'⟩ := l'.readFrom_tokens start' text'
  rw [hmore, hmore', htokens, htokens'] at halike
  have hsame := halike.length_eq
  simp only [List.length_cons, List.length_append, List.length_reverse] at hsame
  have hlast := List.forall₂_drop (more.length + 1) halike
  rw [List.drop_succ_cons, List.drop_succ_cons, List.drop_left' (List.length_reverse ..),
    List.drop_left' (by rw [List.length_reverse]; omega)] at hlast
  exact h (List.forall₂_cons.1 hlast).1

/-- Going through a text with carriage returns before line feeds gives tokens that are alike, unless
a token is a raw string with a line feed on one line; and then it does not. -/
theorem readFrom_withReturns (h : Beside Token.Alike [] l l') {text : List Char}
    (htext : '\r' ∉ text) :
    List.Forall₂ Token.Alike (l.readFrom start text).tokens
        (l'.readFrom start' (withReturns text)).tokens ∨
      (∃ t ∈ (l.readFrom start text).tokens, t.lexeme.JoinsRaw) ∧
        ¬ List.Forall₂ (fun t t' => t.lexeme.Alike t'.lexeme) (l.readFrom start text).tokens
          (l'.readFrom start' (withReturns text)).tokens := by
  fun_induction l.readFrom start text generalizing l' start' with
  | case1 l start =>
    rw [withReturns_nil, readFrom]
    obtain ⟨tokens', hR, heq⟩ := (h.finish (implied_alike start start')).tokens
    rw [heq, List.append_nil]
    exact .inl hR
  | case2 l start c rest s =>
    rename_i length ih
    have hrest : '\r' ∉ rest.drop s.more :=
      fun hmem => htext (List.mem_cons_of_mem c (List.mem_of_mem_drop hmem))
    by_cases hfeed : c = '\n'
    · subst hfeed
      have hfeed : s = ⟨.lineEnd .lineFeed, 0⟩ := by simp [s, Piece.at]
      have hboth : Piece.at '\r' ('\n' :: withReturns rest) =
          ⟨.lineEnd .carriageReturnLineFeed, 1⟩ := by simp [Piece.at]
      rw [withReturns_cons_lineFeed, readFrom, hboth]
      have hpiece : Piece.Beside (fun x x' => Token.Alike ⟨⟨start, length⟩, x⟩ ⟨⟨start', 2⟩, x'⟩)
          s.piece (.lineEnd .carriageReturnLineFeed) := by
        have hnewLine : ¬ (Lexeme.newLine .lineFeed).JoinsRaw := Lexeme.not_joinsRaw (by decide)
        rw [hfeed]
        exact .lineEnd ⟨.newLine .lineFeed, hnewLine⟩
      have hnext := @ih _ (start' + 2) (h.absorb (implied_alike start start') '\n' hpiece) hrest
      rw [hfeed] at hnext ⊢
      exact hnext
    rw [withReturns_cons hfeed, readFrom]
    rcases Piece.at_withReturns hfeed htext with
      ⟨hpiece, hdrop⟩ | ⟨literal, literal', hliteral, hjoins, hliteral', halike⟩
    · rw [hdrop]
      exact ih (h.absorb (implied_alike start start') c hpiece) hrest
    · -- The string differs, and all that comes behind it does not matter.
      have hleave := h.leaveBlanks (implied_alike start start') true
      obtain ⟨before', hbefore, heq⟩ := hleave.tokens
      rw [List.append_nil] at heq
      rw [hliteral']
      change s.piece = _ at hliteral
      rw [hliteral]
      refine .inr ⟨?_, not_alike_readFrom halike (hbefore.length_eq.trans (congrArg _ heq.symm)) rfl
        rfl _ _⟩
      obtain ⟨more, -, -, hmore⟩ :=
        (l.absorb c start length (.lexeme (.string literal))).readFrom_tokens (start + length)
          (rest.drop s.more)
      refine ⟨⟨⟨start, length⟩, .string literal⟩, ?_, literal, rfl, hjoins⟩
      rw [hmore]
      exact List.mem_cons_of_mem _ (List.mem_append_right _ List.mem_cons_self)

end Layout

/-- Texts with line ends by one character and by two have the same tokens but for the line ends in
them, if and only if no raw string that may stand on one line only holds a line feed. -/
theorem Tokens.ofText_withReturns {text : List Char} (h : '\r' ∉ text) :
    List.Forall₂ (fun t t' => t.lexeme.Alike t'.lexeme) (ofText text) (ofText (withReturns text)) ↔
      ∀ t ∈ ofText text, ∀ literal, t.lexeme = .string literal → ¬ literal.JoinsRaw := by
  have hinitial : Layout.Beside Token.Alike [] Layout.initial Layout.initial :=
    ⟨⟨[], .nil, rfl⟩, rfl, rfl, rfl, rfl⟩
  rw [ofText, ofText, List.forall₂_reverse_iff]
  simp only [List.mem_reverse]
  rcases @Layout.readFrom_withReturns _ _ 0 0 hinitial text h with
    halike | ⟨⟨t, ht, hjoins⟩, halike⟩
  · have hboth : List.Forall₂ (fun t t' : Token => ¬ t.lexeme.JoinsRaw ∧ t.lexeme.Alike t'.lexeme)
        (Layout.initial.readFrom 0 text).tokens
        (Layout.initial.readFrom 0 (withReturns text)).tokens :=
      halike.imp fun t t' ht => ⟨ht.2, ht.1⟩
    obtain ⟨hnone, hall⟩ := (List.forall₂_and_left _ _).1 hboth
    refine ⟨fun _ t ht literal hliteral hjoins => ?_, fun _ => hall⟩
    exact hnone t ht ⟨literal, hliteral, hjoins⟩
  · obtain ⟨literal, hliteral, hjoins⟩ := hjoins
    exact ⟨fun hall => absurd hall halike, fun hnone => absurd hjoins (hnone t ht literal hliteral)⟩

/-- A string between three quotes may hold line ends of both kinds. -/
theorem Tokens.ofText_withReturns_triple :
    '\r' ∉ ['"', '"', '"', '\n', '"', '"', '"'] ∧
      List.Forall₂ (fun t t' => t.lexeme.Alike t'.lexeme)
        (ofText ['"', '"', '"', '\n', '"', '"', '"'])
        (ofText (withReturns ['"', '"', '"', '\n', '"', '"', '"'])) := by
  refine ⟨by decide, (Tokens.ofText_withReturns (by decide)).2 ?_⟩
  intro t ht literal hliteral hjoins
  have hlexemes : (ofText ['"', '"', '"', '\n', '"', '"', '"']).map Token.lexeme =
      [.string ⟨⟨6⟩, "\n", false⟩, .newLine .implied, .endOfStream] := by decide +kernel
  have hmem := List.mem_map_of_mem (f := Token.lexeme) ht
  rw [hlexemes, hliteral] at hmem
  obtain rfl : literal = ⟨⟨6⟩, "\n", false⟩ := by simpa using hmem
  exact absurd hjoins.1 (by decide)

/-- With a carriage return, the line feed behind the backslash of a raw string ends the string. -/
example : (Tokens.ofText ['r', '"', '\\', '\n', '"']).length = 3 ∧
    (Tokens.ofText (withReturns ['r', '"', '\\', '\n', '"'])).length = 5 := by decide +kernel

end TypeProbe
