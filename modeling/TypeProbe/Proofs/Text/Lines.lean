import Mathlib.Data.Set.Card
import TypeProbe.Proofs.Token.Coverage

/-!
# Lines and positions

Lines end by a line feed, by a carriage return, or by the two together, which are never parted
(`EndsLine`). The line map of a text finds the starts of its lines in one pass with a look at the
next character; `mem_lineStarts_ofText` says that they are the first offset and the offsets at which
some line of the text stops (`LineStopsAt`).

`LineMap.Ascending` is all that positions need of a line map. The line of an offset is one less than
the number of starts at or before it (`Ascending.line_add_one`), so the start of that line is the
greatest such start, and whoever searches for the offset among the starts comes to the same line
(`Ascending.position_of_answers`). `LineMap.position_ofText` puts this together for the line map of
a text.
-/

namespace TypeProbe

/-- One of the ways in which a line ends stands between two parts of a text, and stands there as a
whole. -/
structure EndsLine (before ending after : List Char) : Prop where
  /-- It is one of the ways in which a line ends. -/
  mem : ending ∈ lineEnds
  /-- No line feed is parted from the carriage return before it. -/
  front : ending.head? = some '\n' → before.getLast? ≠ some '\r'
  /-- No carriage return is parted from the line feed behind it. -/
  back : ending.getLast? = some '\r' → after.head? ≠ some '\n'

/-- Some line of a text stops at the offset, behind what ends it. -/
def LineStopsAt (text : List Char) (offset : Nat) : Prop :=
  ∃ before ending after, text = before ++ ending ++ after ∧ EndsLine before ending after ∧
    offset = byteLength (before ++ ending)

/-! ## BreaksLine -/

/-- A text breaks between two parts, by the characters on both sides of the break. -/
def BreaksLine (before after : List Char) : Prop :=
  before.getLast? = some '\n' ∨ before.getLast? = some '\r' ∧ after.head? ≠ some '\n'

section BreaksLine

variable {c : Char} {before ending after rest text : List Char} {x offset : Nat}

/-- No text breaks in front of its first character. -/
theorem not_breaksLine_nil : ¬ BreaksLine [] after := by
  simp [BreaksLine]

/-- Behind a first character a text breaks directly, or behind some of the others. -/
theorem breaksLine_cons_iff : BreaksLine (c :: before) after ↔ before = [] ∧ BreaksLine [c] after ∨
    BreaksLine before after := by
  cases before with
  | nil => simp [not_breaksLine_nil]
  | cons d before => simp [BreaksLine]

/-- A text breaks behind what ends a line, unless a carriage return is parted from the line feed
behind it. -/
theorem breaksLine_of_mem_lineEnds (h : ending ∈ lineEnds)
    (hback : ending.getLast? = some '\r' → after.head? ≠ some '\n') :
    BreaksLine (before ++ ending) after := by
  simp only [lineEnds, List.mem_cons, List.not_mem_nil, or_false] at h
  rcases h with rfl | rfl | rfl
  · exact .inl List.getLast?_concat
  · exact .inr ⟨List.getLast?_concat, hback rfl⟩
  · exact .inl (by simp)

/-- In front of a break stands what ends a line. -/
theorem BreaksLine.exists_endsLine (h : BreaksLine before after) :
    ∃ front ending, before = front ++ ending ∧ EndsLine front ending after := by
  rcases h with hfeed | ⟨hreturn, hafter⟩
  · obtain ⟨front, rfl⟩ := List.getLast?_eq_some_iff.1 hfeed
    -- The line feed ends the line together with a carriage return, if there is one before it.
    by_cases hreturn : front.getLast? = some '\r'
    · obtain ⟨front, rfl⟩ := List.getLast?_eq_some_iff.1 hreturn
      exact ⟨front, ['\r', '\n'], by simp, by simp [lineEnds], by simp, by simp⟩
    · exact ⟨front, ['\n'], rfl, by simp [lineEnds], fun _ => hreturn, by simp⟩
  · obtain ⟨front, rfl⟩ := List.getLast?_eq_some_iff.1 hreturn
    exact ⟨front, ['\r'], rfl, by simp [lineEnds], by simp, fun _ => hafter⟩

/-- A line stops at the breaks of a text. -/
theorem lineStopsAt_iff : LineStopsAt text x ↔
    ∃ before after, text = before ++ after ∧ BreaksLine before after ∧ x = byteLength before := by
  constructor
  · rintro ⟨before, ending, after, rfl, hends, rfl⟩
    exact ⟨before ++ ending, after, rfl, breaksLine_of_mem_lineEnds hends.mem hends.back, rfl⟩
  · rintro ⟨before, after, rfl, hbreaks, rfl⟩
    obtain ⟨front, ending, rfl, hends⟩ := hbreaks.exists_endsLine
    exact ⟨front, ending, after, rfl, hends, rfl⟩

/-- The breaks of a text that stands at an offset are the one behind its first character, if there
is one, and those of the rest. -/
theorem exists_breaksLine_cons_iff :
    (∃ before after, c :: rest = before ++ after ∧ BreaksLine before after ∧
        x = offset + byteLength before) ↔
      BreaksLine [c] rest ∧ x = offset + c.utf8Size ∨
        ∃ before after, rest = before ++ after ∧ BreaksLine before after ∧
          x = offset + c.utf8Size + byteLength before := by
  constructor
  · rintro ⟨before, after, htext, hbreaks, rfl⟩
    cases before with
    | nil => exact absurd hbreaks not_breaksLine_nil
    | cons d before =>
      obtain ⟨rfl, rfl⟩ := List.cons.inj htext
      rcases breaksLine_cons_iff.1 hbreaks with ⟨rfl, hfirst⟩ | hlater
      · exact .inl ⟨hfirst, by simp⟩
      · exact .inr ⟨before, after, rfl, hlater, by rw [byteLength_cons, Nat.add_assoc]⟩
  · rintro (⟨hfirst, rfl⟩ | ⟨before, after, rfl, hlater, rfl⟩)
    · exact ⟨[c], rest, rfl, hfirst, by simp⟩
    · exact ⟨c :: before, after, rfl, breaksLine_cons_iff.2 (.inr hlater),
        by rw [byteLength_cons, Nat.add_assoc]⟩

/-- A line stops behind the front of its text, and not behind the text. -/
theorem LineStopsAt.bounds (h : LineStopsAt text x) : 0 < x ∧ x ≤ byteLength text := by
  obtain ⟨before, after, rfl, hbreaks, rfl⟩ := lineStopsAt_iff.1 h
  cases before with
  | nil => exact absurd hbreaks not_breaksLine_nil
  | cons d before =>
    have hsize := d.utf8Size_pos
    rw [byteLength_append, byteLength_cons]
    omega

end BreaksLine

namespace LineMap

/-! ## The starts of the lines of a text -/

variable {text : List Char} {offset x : Nat}

/-- One pass over a text finds its breaks. -/
theorem mem_startsAfter : x ∈ startsAfter offset text ↔
    ∃ before after, text = before ++ after ∧ BreaksLine before after ∧
      x = offset + byteLength before := by
  fun_induction startsAfter offset text with
  | case1 offset =>
    refine iff_of_false List.not_mem_nil ?_
    rintro ⟨before, after, htext, hbreaks, -⟩
    obtain ⟨rfl, -⟩ := List.append_eq_nil_iff.1 htext.symm
    exact not_breaksLine_nil hbreaks
  | case2 offset rest ih =>
    have hfirst : ¬ BreaksLine ['\r'] ('\n' :: rest) := by simp [BreaksLine]
    have hsecond : BreaksLine ['\n'] rest := .inl rfl
    rw [exists_breaksLine_cons_iff, exists_breaksLine_cons_iff, List.mem_cons, ih]
    simp only [hfirst, hsecond, false_and, true_and, false_or]
    rfl
  | case3 offset c rest hpair next hend ih =>
    -- Behind a carriage return there is no line feed here, so it breaks the text like a line feed.
    have hfirst : BreaksLine [c] rest := by
      rcases hend with rfl | rfl
      · exact .inl rfl
      · refine .inr ⟨rfl, fun hfeed => ?_⟩
        obtain ⟨rest, rfl⟩ := List.head?_eq_some_iff.1 hfeed
        exact hpair rest rfl rfl
    rw [exists_breaksLine_cons_iff, List.mem_cons, ih]
    simp only [hfirst, true_and]
    rfl
  | case4 offset c rest hpair next hend ih =>
    have hfirst : ¬ BreaksLine [c] rest := by
      rintro (hfeed | ⟨hreturn, -⟩)
      · exact hend (.inl (Option.some.inj hfeed))
      · exact hend (.inr (Option.some.inj hreturn))
    rw [exists_breaksLine_cons_iff, ih]
    simp only [hfirst, false_and, false_or]
    rfl

/-- One pass over a text finds starts behind the offset at which the text stands, in order. -/
theorem pairwise_startsAfter (offset : Nat) (text : List Char) :
    (offset :: startsAfter offset text).Pairwise (· < ·) := by
  fun_induction startsAfter offset text with
  | case1 offset => exact List.pairwise_singleton _ _
  | case2 offset rest ih =>
    refine List.pairwise_cons.2 ⟨fun x hx => ?_, ih⟩
    rcases List.mem_cons.1 hx with rfl | hx
    · omega
    · have := (List.pairwise_cons.1 ih).1 x hx
      omega
  | case3 offset c rest hpair next hend ih =>
    have hsize : 0 < c.utf8Size := c.utf8Size_pos
    refine List.pairwise_cons.2 ⟨fun x hx => ?_, ih⟩
    rcases List.mem_cons.1 hx with rfl | hx
    · omega
    · have := (List.pairwise_cons.1 ih).1 x hx
      omega
  | case4 offset c rest hpair next hend ih =>
    obtain ⟨hbehind, hrest⟩ := List.pairwise_cons.1 ih
    refine List.pairwise_cons.2 ⟨fun x hx => ?_, hrest⟩
    have := hbehind x hx
    omega

/-- The lines of a text start at its front, and where other lines stop. -/
theorem mem_lineStarts_ofText : x ∈ (ofText text).lineStarts ↔ x = 0 ∨ LineStopsAt text x := by
  have hstarts : (ofText text).lineStarts = 0 :: startsAfter 0 text := rfl
  rw [hstarts, List.mem_cons, mem_startsAfter, lineStopsAt_iff]
  simp only [Nat.zero_add]

/-! ## Positions -/

/-- The starts of the lines ascend from the first offset. -/
structure Ascending (m : LineMap) : Prop where
  /-- The first line starts at the first offset. -/
  first : m.lineStarts.head? = some 0
  /-- Each line starts behind the start of the line before it. -/
  pairwise : m.lineStarts.Pairwise (· < ·)

/-- The lines of a text ascend. -/
theorem ascending_ofText (text : List Char) : (ofText text).Ascending :=
  ⟨rfl, pairwise_startsAfter 0 text⟩

/-- The last start at or before an offset is told by how many there are behind the first one. -/
theorem locate_spec {starts : List Nat} {line start : Nat}
    (hsorted : (start :: starts).Pairwise (· < ·)) (hstart : start ≤ offset) :
    (locate offset line start starts).1 = line + starts.countP (· ≤ offset) ∧
      (start :: starts)[starts.countP (· ≤ offset)]? = some (locate offset line start starts).2 ∧
      (locate offset line start starts).2 ≤ offset := by
  induction starts generalizing line start with
  | nil => exact ⟨rfl, rfl, hstart⟩
  | cons next rest ih =>
    obtain ⟨-, hrest⟩ := List.pairwise_cons.1 hsorted
    rw [locate]
    by_cases hnext : next ≤ offset
    · obtain ⟨hline, hget, hle⟩ := @ih (line + 1) next hrest hnext
      have hcount : (next :: rest).countP (· ≤ offset) = rest.countP (· ≤ offset) + 1 := by
        simp [hnext]
      rw [if_pos hnext, hcount, hline]
      exact ⟨by omega, hget, hle⟩
    · -- No later start is at or before the offset either.
      have hcount : (next :: rest).countP (· ≤ offset) = 0 := by
        refine List.countP_eq_zero.2 fun x hx => ?_
        rcases List.mem_cons.1 hx with rfl | hx
        · simpa using hnext
        · have := (List.pairwise_cons.1 hrest).1 x hx
          simp only [decide_eq_true_eq]
          omega
      rw [if_neg hnext, hcount]
      exact ⟨rfl, rfl, hstart⟩

/-- What a search in an ascending list answers. -/
inductive SearchResult where
  /-- The value stands at the place. -/
  | found (place : Nat)
  /-- The value does not stand in the list; it would be put in at the place. -/
  | missing (place : Nat)

/-- A search answers as it should. -/
def SearchResult.Answers (values : List Nat) (value : Nat) : SearchResult → Prop
  | .found place => values[place]? = some value
  | .missing place => place ≤ values.length ∧ (∀ v ∈ values.take place, v < value) ∧
      ∀ v ∈ values.drop place, value < v

/-- The line to which a search for an offset among the starts leads. -/
def SearchResult.line : SearchResult → Nat
  | .found place => place
  | .missing place => place - 1

/-- The position of an offset on the line to which a search leads. -/
def positionFrom (m : LineMap) (result : SearchResult) (offset : Nat) : Position :=
  ⟨result.line, offset - (m.lineStarts[result.line]?).getD 0⟩

/-- Where a list is cut between the values up to an offset and those behind it, the first part is
all that is counted. -/
theorem countP_of_cut {front back : List Nat} (hfront : ∀ v ∈ front, v ≤ offset)
    (hback : ∀ v ∈ back, offset < v) :
    (front ++ back).countP (· ≤ offset) = front.length := by
  have hall : front.countP (· ≤ offset) = front.length :=
    List.countP_eq_length.2 fun v hv => decide_eq_true (hfront v hv)
  have hnone : back.countP (· ≤ offset) = 0 := List.countP_eq_zero.2 fun v hv => by
    have := hback v hv
    simp only [decide_eq_true_eq]
    omega
  rw [List.countP_append, hall, hnone, Nat.add_zero]

namespace Ascending

variable {m : LineMap} (h : m.Ascending)
include h

/-- A position is on the last line that starts at or before its offset, and its column is what is
left from there. -/
theorem position_spec (offset : Nat) :
    (m.position offset).line + 1 = m.lineStarts.countP (· ≤ offset) ∧
      ∃ start, m.lineStarts[(m.position offset).line]? = some start ∧
        start + (m.position offset).column = offset := by
  obtain ⟨starts, hstarts⟩ := List.head?_eq_some_iff.1 h.first
  have hsorted : (0 :: starts).Pairwise (· < ·) := hstarts ▸ h.pairwise
  obtain ⟨hline, hget, hle⟩ := @locate_spec offset starts 0 0 hsorted (Nat.zero_le offset)
  have hposition : m.position offset =
      ⟨(locate offset 0 0 starts).1, offset - (locate offset 0 0 starts).2⟩ := by
    rw [position, hstarts]
    rfl
  rw [hposition, hstarts, hline, Nat.zero_add]
  refine ⟨?_, (locate offset 0 0 starts).2, hget, ?_⟩
  · simp
  · dsimp only
    omega

/-- The line of an offset is one less than the number of starts at or before it. -/
theorem line_add_one (offset : Nat) :
    (m.position offset).line + 1 = m.lineStarts.countP (· ≤ offset) :=
  (h.position_spec offset).1

/-- Positions are in the order of their offsets. -/
theorem compare_position {offset' : Nat} (hlt : offset < offset') :
    (m.position offset).compare (m.position offset') = .lt := by
  obtain ⟨hline, start, hget, hstart⟩ := h.position_spec offset
  obtain ⟨hline', start', hget', hstart'⟩ := h.position_spec offset'
  have hcount : m.lineStarts.countP (· ≤ offset) ≤ m.lineStarts.countP (· ≤ offset') := by
    refine List.countP_mono_left fun x _ hx => ?_
    simp only [decide_eq_true_eq] at hx ⊢
    omega
  rw [Position.compare]
  rcases Nat.lt_or_ge (m.position offset).line (m.position offset').line with hless | hsame
  · rw [Nat.compare_eq_lt.2 hless]
    rfl
  · -- On one line both columns are counted from the same start.
    have hlines : (m.position offset).line = (m.position offset').line := by omega
    have hstarts : start = start' := by
      rw [hlines, hget'] at hget
      exact (Option.some.inj hget).symm
    have hcolumns : (m.position offset).column < (m.position offset').column := by omega
    rw [Nat.compare_eq_eq.2 hlines, Nat.compare_eq_lt.2 hcolumns]
    rfl

/-- A start among the others is the front of its line, whose number is how many starts come before
it. -/
theorem position_of_split {front back : List Nat} {start : Nat}
    (hsplit : m.lineStarts = front ++ start :: back) : m.position start = ⟨front.length, 0⟩ := by
  have hsorted := h.pairwise
  rw [hsplit, List.pairwise_append, List.pairwise_cons] at hsorted
  obtain ⟨-, ⟨hback, -⟩, hfront⟩ := hsorted
  have hcut := @countP_of_cut start (front ++ [start]) back
    (fun v hv => by
      rcases List.mem_append.1 hv with hv | hv
      · exact Nat.le_of_lt (hfront v hv start List.mem_cons_self)
      · exact Nat.le_of_eq (List.mem_singleton.1 hv))
    hback
  rw [List.append_assoc, List.singleton_append, ← hsplit, List.length_append,
    List.length_singleton] at hcut
  obtain ⟨hline, start', hget, hstart'⟩ := h.position_spec start
  have hfirst : (m.position start).line = front.length := by omega
  rw [hfirst, hsplit, List.getElem?_append_right (Nat.le_refl _), Nat.sub_self,
    List.getElem?_cons_zero] at hget
  have hsame : start = start' := Option.some.inj hget
  have hcolumn : (m.position start).column = 0 := by omega
  rw [← hfirst, ← hcolumn]

/-- Two offsets without a start between them are on one line. -/
theorem line_eq {offset' : Nat} (hle : offset ≤ offset')
    (hnone : ∀ x ∈ m.lineStarts, offset < x → offset' < x) :
    (m.position offset).line = (m.position offset').line := by
  have hcount : m.lineStarts.countP (· ≤ offset) = m.lineStarts.countP (· ≤ offset') := by
    refine List.countP_congr fun x hx => ?_
    have := hnone x hx
    simp only [decide_eq_true_eq]
    omega
  have hline := h.line_add_one offset
  have hline' := h.line_add_one offset'
  omega

/-- The next start behind an offset is the front of the next line. -/
theorem position_next {start : Nat} (hstart : start ∈ m.lineStarts) (hlt : offset < start)
    (hnone : ∀ x ∈ m.lineStarts, offset < x → start ≤ x) :
    m.position start = ⟨(m.position offset).line + 1, 0⟩ := by
  obtain ⟨front, back, hsplit⟩ := List.append_of_mem hstart
  have hsorted := h.pairwise
  rw [hsplit, List.pairwise_append, List.pairwise_cons] at hsorted
  obtain ⟨-, ⟨hback, -⟩, hfront⟩ := hsorted
  -- The starts at or before the offset are those in front of the next start.
  have hcut := @countP_of_cut offset front (start :: back)
    (fun v hv => by
      have hless := hfront v hv start List.mem_cons_self
      have hnext := hnone v (by simp [hsplit, hv])
      omega)
    (fun v hv => by
      rcases List.mem_cons.1 hv with rfl | hv
      · exact hlt
      · exact Nat.lt_trans hlt (hback v hv))
  rw [← hsplit, ← h.line_add_one] at hcut
  rw [h.position_of_split hsplit, hcut]

/-- A position is on the line to which a search for its offset leads. -/
theorem line_of_answers {result : SearchResult} (hresult : result.Answers m.lineStarts offset) :
    result.line = (m.position offset).line := by
  cases result with
  | found place =>
    obtain ⟨hplace, hvalue⟩ := List.getElem?_eq_some_iff.1 hresult
    have hsplit : m.lineStarts =
        m.lineStarts.take place ++ offset :: m.lineStarts.drop (place + 1) := by
      rw [← hvalue, ← List.drop_eq_getElem_cons hplace, List.take_append_drop]
    rw [h.position_of_split hsplit, List.length_take_of_le (Nat.le_of_lt hplace)]
    rfl
  | missing place =>
    obtain ⟨hplace, hfront, hback⟩ := hresult
    have hcut := countP_of_cut (fun v hv => Nat.le_of_lt (hfront v hv)) hback
    rw [List.take_append_drop, List.length_take_of_le hplace, ← h.line_add_one] at hcut
    simp only [SearchResult.line]
    omega

/-- Whatever search is used for an offset leads to its position. -/
theorem position_of_answers {result : SearchResult}
    (hresult : result.Answers m.lineStarts offset) :
    m.position offset = m.positionFrom result offset := by
  obtain ⟨-, start, hget, hstart⟩ := h.position_spec offset
  rw [positionFrom, h.line_of_answers hresult, hget, Option.getD_some]
  have hcolumn : offset - start = (m.position offset).column := by omega
  rw [hcolumn]

end Ascending

/-- A list without repetitions has as many members as entries. -/
theorem ncard_setOf_mem {l : List Nat} (h : l.Nodup) : {x | x ∈ l}.ncard = l.length := by
  have hset : {x | x ∈ l} = (l.toFinset : Set Nat) := by
    ext x
    simp
  rw [hset, Set.ncard_coe_finset, List.toFinset_card_of_nodup h]

/-- Offsets and positions of a text correspond, in order. The starts of the lines ascend from the
first offset to no more than the length of the text, and there is one more of them than lines stop.
The line of an offset is the number of lines that stop at or before it, and its column is what is
left from the start of that line; any search for the offset among the starts leads there. Of two
offsets the earlier one has the earlier position. -/
theorem position_ofText (text : List Char) :
    let m := ofText text
    (m.lineStarts.head? = some 0 ∧ m.lineStarts.Pairwise (· < ·)) ∧
      (∀ x, x ∈ m.lineStarts ↔ x = 0 ∨ LineStopsAt text x) ∧
      (∀ x ∈ m.lineStarts, x ≤ byteLength text) ∧
      m.lineCount = {x | LineStopsAt text x}.ncard + 1 ∧
      (∀ offset, (m.position offset).line = {x | LineStopsAt text x ∧ x ≤ offset}.ncard ∧
        ∃ start, m.lineStarts[(m.position offset).line]? = some start ∧
          start + (m.position offset).column = offset) ∧
      (∀ offset (result : SearchResult), result.Answers m.lineStarts offset →
        m.position offset = m.positionFrom result offset) ∧
      ∀ offset offset', offset < offset' →
        (m.position offset).compare (m.position offset') = .lt := by
  intro m
  have hascending := ascending_ofText text
  -- The starts but the first are the offsets at which lines stop.
  have hstarts : m.lineStarts = 0 :: startsAfter 0 text := rfl
  have hnodup : (startsAfter 0 text).Nodup :=
    (List.pairwise_cons.1 hascending.pairwise).2.imp Nat.ne_of_lt
  have hstops : ∀ x, LineStopsAt text x ↔ x ∈ startsAfter 0 text := fun x => by
    rw [mem_startsAfter, lineStopsAt_iff]
    simp only [Nat.zero_add]
  refine ⟨⟨hascending.first, hascending.pairwise⟩, fun x => mem_lineStarts_ofText, fun x hx => ?_,
    ?_, fun offset => ⟨?_, (hascending.position_spec offset).2⟩,
    fun offset result hresult => hascending.position_of_answers hresult,
    fun offset offset' hlt => hascending.compare_position hlt⟩
  · rcases mem_lineStarts_ofText.1 hx with rfl | hstop
    · exact Nat.zero_le _
    · exact hstop.bounds.2
  · simp only [hstops]
    rw [ncard_setOf_mem hnodup, lineCount, hstarts, List.length_cons]
  · have hset : {x | LineStopsAt text x ∧ x ≤ offset} =
        {x | x ∈ (startsAfter 0 text).filter (· ≤ offset)} := by
      ext x
      simp [hstops]
    have hline : (m.position offset).line + 1 = m.lineStarts.countP (· ≤ offset) :=
      hascending.line_add_one offset
    rw [hset, ncard_setOf_mem (hnodup.filter _), ← List.countP_eq_length_filter]
    have hcount : m.lineStarts.countP (· ≤ offset) =
        (startsAfter 0 text).countP (· ≤ offset) + 1 := by
      rw [hstarts]
      simp
    exact Nat.succ.inj (hline.trans hcount)

example : (ofText ['a', '\r', '\n', 'b']).position 2 = ⟨0, 2⟩ := by decide

end LineMap

end TypeProbe
