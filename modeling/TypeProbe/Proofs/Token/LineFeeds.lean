import TypeProbe.Proofs.Token.FirstLine

/-!
# What comes behind a line feed

A piece of a text that ends before a line feed is what it would be if nothing came behind that line
feed (`Piece.at_feed`). Only strings need a proof of their own: all other pieces are decided by
their first line. Inside of a string a step may look at the two characters behind a backslash, and
sees no more than the line feed (`Quoting.step_feed`).
-/

namespace TypeProbe

variable {c : Char} {text more : List Char}

/-- The first line is not changed by what comes behind a line feed. -/
theorem firstLine_feed (text more : List Char) :
    firstLine (text ++ '\n' :: more) = firstLine (text ++ ['\n']) := by
  induction text with
  | nil => rw [List.nil_append, List.nil_append, firstLine_cons_of_isLineEnd (.inl rfl),
      firstLine_cons_of_isLineEnd (.inl rfl)]
  | cons d text ih =>
    rw [List.cons_append, List.cons_append]
    by_cases hd : IsLineEnd d
    · rw [firstLine_cons_of_isLineEnd hd, firstLine_cons_of_isLineEnd hd]
    · rw [firstLine_cons hd, firstLine_cons hd, ih]

/-- The first line ends at the line feed, or before. -/
theorem length_firstLine_feed_le (text : List Char) :
    (firstLine (text ++ ['\n'])).length ≤ text.length := by
  induction text with
  | nil => exact Nat.le_refl _
  | cons d text ih =>
    rw [List.cons_append]
    by_cases hd : IsLineEnd d
    · rw [firstLine_cons_of_isLineEnd hd]
      exact Nat.zero_le _
    · rw [firstLine_cons hd]
      exact Nat.succ_le_succ ih

/-- Neither is the first character. -/
theorem head?_feed (text more : List Char) :
    (text ++ '\n' :: more).head? = (text ++ ['\n']).head? := by
  cases text <;> rfl

namespace Quoting

variable {q : Quoting} {sofar : StringBody}

/-- A backslash at the end of a line is read without regard to what comes behind a line feed. -/
theorem escape_feed (hc : IsLineEnd c) (text more : List Char) :
    q.escape c (text ++ '\n' :: more) = q.escape c (text ++ ['\n']) := by
  rcases hc with rfl | rfl
  · rfl
  · show Part.mk _ _ (if _ then _ else _) = Part.mk _ _ (if _ then _ else _)
    rw [head?_feed]

/-- A step is not changed by what comes behind a line feed. -/
theorem step_feed (hquote : ¬ IsLineEnd q.quote) (c : Char) (text more : List Char) :
    q.step c (text ++ '\n' :: more) = q.step c (text ++ ['\n']) := by
  by_cases hjoin : c = '\\' ∧ ∃ d ∈ (text ++ ['\n']).head?, IsLineEnd d
  · obtain ⟨rfl, d, hd, hend⟩ := hjoin
    have hstep : ∀ rest, q.step '\\' (d :: rest) =
        if q.raw then .part ⟨['\\', d], false, 1⟩ else .part (q.escape d rest) := fun _ => rfl
    cases text with
    | nil =>
      obtain rfl : '\n' = d := Option.some.inj hd
      rw [List.nil_append, List.nil_append, hstep, hstep]
      rfl
    | cons e text =>
      obtain rfl : e = d := Option.some.inj hd
      rw [List.cons_append, List.cons_append, hstep, hstep, escape_feed hend]
  · -- A step that meets no joined line stays on the first line.
    have hline : c = '\\' → ∀ d ∈ (text ++ ['\n']).head?, ¬ IsLineEnd d :=
      fun hc d hd hend => hjoin ⟨hc, d, hd, hend⟩
    rw [← (step_firstLine hquote hline).1, ← firstLine_feed text more]
    exact (step_firstLine hquote (head?_feed text more ▸ hline)).1.symm

/-- A string that ends before a line feed is not changed by what comes behind. -/
theorem readBody_feed (hquote : ¬ IsLineEnd q.quote)
    (h : (q.readBody sofar (text ++ ['\n'])).size ≤ sofar.size + text.length) :
    q.readBody sofar (text ++ '\n' :: more) = q.readBody sofar (text ++ ['\n']) := by
  induction hlength : text.length using Nat.strong_induction_on generalizing text sofar with
  | _ length ih =>
  subst hlength
  cases text with
  | nil =>
    have hstep := fun rest => @step_of_isLineEnd q '\n' rest hquote (.inl rfl)
    cases htriple : q.triple with
    | false =>
      have hbroken : ∀ rest, q.step '\n' rest = .broken := fun rest => by
        rw [hstep, htriple]
        rfl
      rw [List.nil_append, List.nil_append, readBody_of_broken (hbroken _),
        readBody_of_broken (hbroken _)]
    | true =>
      have hpart : ∀ rest, q.step '\n' rest = .part ⟨['\n'], false, 0⟩ := fun rest => by
        rw [hstep, htriple]
        rfl
      rw [List.nil_append, readBody_of_part (hpart _)] at h
      obtain ⟨-, n, hn⟩ := readBody_extends q (sofar.add ⟨['\n'], false, 0⟩) []
      have hsize : (sofar.add ⟨['\n'], false, 0⟩).size = sofar.size + 1 := rfl
      have hshort : (q.readBody (sofar.add ⟨['\n'], false, 0⟩) []).size ≤ sofar.size := h
      omega
  | cons c text =>
    rw [List.cons_append] at h
    rw [List.cons_append, List.cons_append]
    have hsame := step_feed hquote c text more
    cases hstep : q.step c (text ++ ['\n']) with
    | close n => rw [readBody_of_close hstep, readBody_of_close (hsame.trans hstep)]
    | broken => rw [readBody_of_broken hstep, readBody_of_broken (hsame.trans hstep)]
    | part part =>
      rw [readBody_of_part hstep] at h
      rw [readBody_of_part hstep, readBody_of_part (hsame.trans hstep)]
      -- The string goes on behind the part, which ends before the line feed.
      obtain ⟨-, n, hn⟩ := readBody_extends q (sofar.add part) ((text ++ ['\n']).drop part.more)
      have hsize : (sofar.add part).size = sofar.size + 1 + part.more := rfl
      rw [List.length_cons] at h
      have hmore : part.more ≤ text.length := by omega
      rw [List.drop_append_of_le_length hmore] at h
      rw [List.drop_append_of_le_length hmore, List.drop_append_of_le_length hmore]
      refine ih _ ?_ ?_ rfl
      · rw [List.length_drop, List.length_cons]
        omega
      · rw [List.length_drop]
        omega

end Quoting

/-- A string that ends before a line feed is not changed by what comes behind. -/
theorem StringLiteral.read_feed {letters : List StringFlag} {quote : Char}
    (hquote : ¬ IsLineEnd quote)
    (h : (read letters quote (quote :: (text ++ ['\n']))).2 ≤ text.length + 1) :
    read letters quote (quote :: (text ++ '\n' :: more)) =
      read letters quote (quote :: (text ++ ['\n'])) := by
  have htriple : isTriple quote (text ++ '\n' :: more) = isTriple quote (text ++ ['\n']) := by
    rw [← (isTriple_firstLine hquote _).1, firstLine_feed, (isTriple_firstLine hquote _).1]
  have hopening : opening quote (text ++ ['\n']) ≤ (quote :: text).length :=
    (isTriple_firstLine hquote _).2.trans (Nat.succ_le_succ (length_firstLine_feed_le text))
  have hbody : body letters quote (text ++ '\n' :: more) = body letters quote (text ++ ['\n']) := by
    have hsize : (body letters quote (text ++ ['\n'])).size ≤ text.length + 1 := h
    unfold body quoting at hsize ⊢
    have hsame : opening quote (text ++ '\n' :: more) = opening quote (text ++ ['\n']) := by
      rw [opening, htriple, opening]
    rw [htriple, hsame]
    rw [← List.cons_append, List.drop_append_of_le_length hopening] at hsize ⊢
    rw [← List.cons_append, List.drop_append_of_le_length hopening]
    refine Quoting.readBody_feed hquote (hsize.trans ?_)
    show text.length + 1 ≤ opening quote (text ++ ['\n']) + _
    rw [List.length_drop]
    exact Nat.le_of_eq (Nat.add_sub_cancel' hopening).symm
  rw [read_eq, read_eq, hbody, htriple]

namespace Piece

/-- A carriage return ends a line, with a line feed directly behind it if there is one. -/
theorem at_return (rest : List Char) :
    Piece.at '\r' rest =
      if rest.head? = some '\n' then ⟨.lineEnd .carriageReturnLineFeed, 1⟩
      else ⟨.lineEnd .carriageReturn, 0⟩ := rfl

/-- A backslash joins its line to the next one if the line ends directly behind it. -/
theorem at_backslash_return (rest : List Char) :
    Piece.at '\\' ('\r' :: rest) = ⟨.lineJoin, if rest.head? = some '\n' then 2 else 1⟩ := by
  cases rest with
  | nil => rfl
  | cons d rest =>
    by_cases hd : d = '\n'
    · subst hd
      rfl
    · have htwo : ('\r' :: d :: rest).take 2 ≠ ['\r', '\n'] := fun h => hd (by simpa using h)
      have hhead : (d :: rest).head? ≠ some '\n' := fun h => hd (Option.some.inj h)
      rw [if_neg hhead]
      simp [Piece.at, hd]

/-- A backslash is read without regard to what comes behind a line feed. -/
theorem at_backslash_feed (text more : List Char) :
    Piece.at '\\' (text ++ '\n' :: more) = Piece.at '\\' (text ++ ['\n']) := by
  cases text with
  | nil => rfl
  | cons d text =>
    rw [List.cons_append, List.cons_append]
    by_cases hd : IsLineEnd d
    · rcases hd with rfl | rfl
      · rfl
      · rw [at_backslash_return, at_backslash_return, head?_feed]
    · have hhead : ∀ rest, ∀ e ∈ (d :: rest).head?, ¬ IsLineEnd e :=
        fun rest e he => Option.some.inj he ▸ hd
      rw [at_backslash (hhead _), at_backslash (hhead _)]

/-- A string that is opened in a text that ends in a line feed has it behind its quote. -/
theorem OpensString.feed {word after : List Char} {letters : List StringFlag} {quote : Char}
    (h : OpensString c (text ++ ['\n']) word letters quote after) (hquote : ¬ IsLineEnd quote) :
    ∃ line, after = line ++ ['\n'] ∧ c :: text = word ++ quote :: line := by
  have hfront : (c :: text) ++ ['\n'] = (word ++ [quote]) ++ after := by
    rw [List.cons_append, h.front, List.append_assoc, List.singleton_append]
  rcases List.append_eq_append_iff.1 hfront with ⟨feed, hword, hfeed⟩ | ⟨line, htext, hafter⟩
  · rcases List.append_eq_singleton_iff.1 hfeed.symm with ⟨rfl, hafter⟩ | ⟨rfl, -⟩
    · rw [List.append_nil] at hword
      exact ⟨[], hafter, hword.symm⟩
    · exact absurd (.inl (List.singleton_inj.1 (List.append_inj' hword rfl).2)) hquote
  · rw [List.append_assoc, List.singleton_append] at htext
    exact ⟨line, hafter, htext⟩

/-- A piece that ends before a line feed is not changed by what comes behind. -/
theorem at_feed (h : (Piece.at c (text ++ ['\n'])).more ≤ text.length) :
    Piece.at c (text ++ '\n' :: more) = Piece.at c (text ++ ['\n']) := by
  by_cases hend : IsLineEnd c
  · rcases hend with rfl | rfl
    · rfl
    · rw [at_return, at_return, head?_feed]
  by_cases hjoin : c = '\\'
  · rw [hjoin, at_backslash_feed]
  rcases plain_or_opensString hend hjoin (text ++ ['\n']) with
    hplain | ⟨word, letters, quote, after, hopens⟩
  · exact hplain.congr hend hjoin (firstLine_feed text more)
  · have hquote : ¬ IsLineEnd quote := by
      rcases hopens.isQuote with rfl | rfl <;> simp [IsLineEnd]
    obtain ⟨line, rfl, hline⟩ := hopens.feed hquote
    have hread := hopens.reads (text ++ ['\n']) (line ++ ['\n']) hopens.front
    have hread' := hopens.reads (text ++ '\n' :: more) (line ++ '\n' :: more) (by
      rw [← List.cons_append, hline, List.append_assoc, List.cons_append])
    have hlength := congrArg List.length hline
    rw [List.length_append, List.length_cons, List.length_cons] at hlength
    rw [hread] at h
    have hsize : word.length +
        (StringLiteral.read letters quote (quote :: (line ++ ['\n']))).2 - 1 ≤ text.length := h
    rw [hread, hread', ofString, ofString, StringLiteral.read_feed hquote (by omega)]

end Piece

end TypeProbe
