import TypeProbe.Proofs.Progress.Lines

/-!
# A text is read to its end

Each item of a text takes a token until the stream ends, so the whole text is read
(`ParseState.InText.rounds`), and no bound is reached on the way.
-/

open TypeProbe.Parser

namespace TypeProbe

/-- A step that takes a token as long as it yields something is taken again and again until it
yields nothing. -/
theorem Parser.exists_rounds {α : Type} (step : Parser (Option α)) {P : ParseState → Prop}
    (hstep : ∀ s a t, P s → step.run s = (some a, t) →
      t.following.length < s.following.length ∧ P t) (s : ParseState) (hs : P s) :
    ∃ as u t, Rounds step s as u ∧ P u ∧ step.run u = (none, t) := by
  induction hlength : s.following.length using Nat.strong_induction_on generalizing s with
  | _ length ih =>
  subst hlength
  match hrun : step.run s with
  | (none, t) => exact ⟨[], s, t, .done, hs, hrun⟩
  | (some a, t) =>
    obtain ⟨hless, ht⟩ := hstep s a t hs hrun
    obtain ⟨as, u, v, hrounds, hu, hdone⟩ := ih _ hless t ht rfl
    exact ⟨a :: as, u, v, .round hrun hless hrounds, hu, hdone⟩

/-- There is no further item of a text only at the end of the stream. -/
theorem Grammar.moduleItem_none {call : Rules} {s t : ParseState}
    (h : (Grammar.moduleItem call).run s = (none, t)) : s.current.kind = .endOfStream ∧ t = s := by
  obtain ⟨⟨range, lexeme⟩⟩ := s
  cases lexeme with
  | endOfStream => exact ⟨rfl, (Prod.mk.inj h).2.symm⟩
  | _ => cases (Prod.mk.inj h).1

namespace ParseState.InText

variable {last : Token} {s : ParseState} {fuel : Nat}

/-- A statement takes a token unless it is called where a line ends. -/
theorem statement_less (h : s.InText last) (hdepth : s.depth ≤ depthLimit)
    (hend : endsLine s.current.kind = false) (hw : 4 * s.following.length + 3 < fuel) :
    ((Grammar.statement (Rule.parse fuel)).run s).2.following.length < s.following.length := by
  have hcall := RulesAlike.parse (Frame.still []) (Nat.le_refl fuel) (Nat.le_refl fuel)
  obtain ⟨q, -, hq, -, -, hless⟩ :=
    Alike.statement hcall rfl hend hw s _ (h.beside hdepth [])
  have hafter : (((Grammar.statement (Rule.parse fuel)).run s).2.following) = q.after :=
    hq.after.trans (List.append_nil _)
  rw [hafter]
  exact hless

/-- All items of a text are read. -/
theorem rounds (h : s.InText last) (hdepth : s.depth = 0)
    (hw : 4 * s.following.length + 4 < fuel) :
    ∃ items u, (many (Grammar.moduleItem (Rule.parse fuel))).run s = (items, u) ∧
      u.tokens = [last] := by
  obtain ⟨items, u, t, hrounds, ⟨hu, -, -⟩, hdone⟩ :=
    exists_rounds (Grammar.moduleItem (Rule.parse fuel))
      (P := fun s => s.InText last ∧ s.depth = 0 ∧ 4 * s.following.length + 4 < fuel)
      (fun s a t hs hrun => by
        obtain ⟨htext, hdepth, hw⟩ := hs
        have hcall := RulesAlike.parse (Frame.still []) (Nat.le_refl fuel) (Nat.le_refl fuel)
        obtain ⟨q, -, hq, -, hless⟩ := Alike.moduleItem hcall rfl hw s _
          (htext.beside (hdepth ▸ Nat.zero_le _) [])
        have hpasses : s.Passes ((Grammar.moduleItem (Rule.parse fuel)).run s).2 :=
          Keeps.moduleItem (R := Course.passing)
            (Rule.parse_keepBlocks Course.passing_blocks (fun _ => trivial) fuel) s
        rw [hrun] at hq hless hpasses
        have hafter : t.following = q.after := hq.after.trans (List.append_nil _)
        have hshort : t.following.length < s.following.length := hafter ▸ hless rfl
        obtain ⟨taken, htaken, -⟩ := hpasses.taken
        exact ⟨hshort, htext.of_suffix ⟨taken, htaken.symm⟩, hpasses.depth.trans hdepth,
          by omega⟩) s ⟨h, hdepth, hw⟩
  obtain ⟨hend, rfl⟩ := Grammar.moduleItem_none hdone
  obtain ⟨x, hx, hmany⟩ := hrounds.many
  refine ⟨items, t, ?_, hu.tokens_eq hend⟩
  rw [hmany, hx.run_of_none hdone, List.append_nil]

end ParseState.InText

namespace ParsedText

/-- The parser of a text begins with all of its tokens. -/
theorem inText_initialState (text : List Char) :
    (initialState (byteLength text) (Tokens.ofText text)).tokens = Tokens.ofText text ∧
      (initialState (byteLength text) (Tokens.ofText text)).InText (endToken (byteLength text)) := by
  obtain ⟨-, front, hfront, htokens⟩ := Tokens.tiles_ofText text
  have hne : Tokens.ofText text ≠ [] := by
    rw [htokens]
    exact List.append_ne_nil_of_right_ne_nil front (List.cons_ne_nil _ _)
  have hall := @tokens_initialState (byteLength text) _ hne
  exact ⟨hall, rfl, front, hall.trans htokens, hfront⟩

/-- A text is read in the same way, whatever is done beyond the bounds for the depth of calls and of
nested expressions, and however many rounds there may be. -/
theorem module_parseElse (text : String) (other : Rules) (rest : List Token) {fuel : Nat}
    (hfuel : callLimit (Tokens.ofText text.toList).length ≤ fuel) :
    let length := byteLength text.toList
    let tokens := Tokens.ofText text.toList
    let whole := (Grammar.module (Rule.parseElse other fuel) length).run
      (initialState length (tokens ++ rest))
    (parseTokens length tokens).2.tokens = [endToken length] ∧
      whole.2.tokens = endToken length :: rest ∧ whole.1 = (ofText text).root ∧
      whole.2.arena = (ofText text).arena ∧
      whole.2.diagnostics.reverse = (ofText text).diagnostics := by
  intro length tokens
  obtain ⟨hall, htext⟩ := inText_initialState text.toList
  have hlength : (initialState length tokens).following.length < tokens.length :=
    Nat.lt_of_lt_of_eq (Nat.lt_succ_self _) (congrArg List.length hall)
  have hw : 4 * (initialState length tokens).following.length + 4 < callLimit tokens.length := by
    simp only [callLimit]
    omega
  obtain ⟨items, u, hrounds, hu⟩ := htext.rounds rfl hw
  have hbeside := htext.beside (Nat.zero_le _) rest
  have hstart : ({ initialState length tokens with
      following := (initialState length tokens).following ++ rest } : ParseState) =
      initialState length (tokens ++ rest) := by
    obtain ⟨t, more, htokens⟩ : ∃ t more, tokens = t :: more := ⟨_, _, hall.symm⟩
    rw [htokens]
    rfl
  have hcall : RulesAlike (Frame.still rest) (callLimit tokens.length)
      (Rule.parse (callLimit tokens.length)) (Rule.parseElse other fuel) :=
    RulesAlike.parseElse (fun _ h => h) other (Nat.le_refl _) hfuel
  -- The items and the node of the whole text are alike.
  have hmodule : AlikeNode (Frame.still rest) (initialState length tokens).spot
      (Grammar.module (Rule.parse (callLimit tokens.length)) length)
      (Grammar.module (Rule.parseElse other fuel) length) := by
    refine (Alike.many fun q hq => Alike.moduleItem hcall rfl ?_).bind fun items q hq _ => ?_
    · have hless : q.after.length ≤ (initialState length tokens).following.length := hq.1
      omega
    · rw [filterMap_id_shift]
      exact Alike.addNode rfl rfl rfl
  obtain ⟨q, -, hq, hroot, -⟩ := hmodule _ _ hbeside
  rw [hstart] at hq hroot
  have hparse : parseTokens length tokens =
      (Grammar.module (Rule.parse (callLimit tokens.length)) length).run
        (initialState length tokens) := rfl
  have hend : (parseTokens length tokens).2.tokens = [endToken length] := by
    rw [hparse, Grammar.module, StateT.run_bind, hrounds]
    exact hu
  rw [← hparse] at hq hroot
  obtain ⟨htoken, hfollowing⟩ := List.cons.inj hend
  have hafter : q.after = [] := by
    rw [← hfollowing, hq.after]
    exact (List.append_nil _).symm
  refine ⟨hend, ?_, hroot, hq.arena.trans (Arena.behind_empty _), ?_⟩
  · refine congrArg₂ _ ?_ ?_
    · exact (hq.token'.trans (congrArg _ hq.token.symm)).trans htoken
    · rw [hq.after', hafter]
      rfl
  · have hsame := hq.diagnostics
    simp only [Frame.still, Diagnostic.shift_zero, List.map_id, List.append_nil] at hsame
    rw [hsame]
    rfl

/-- The parser of a text reads all of it and always goes on. It ends where the stream does, with the
same tree whatever is done beyond the bounds for the depth of calls and of nested expressions, and
however many rounds there may be. Each of its parsers, from wherever in the text it begins, goes on
to later tokens, does not take the end of the stream, and leaves as many nested expressions as it
enters. Expressions and simple statements do not take the end of a line, and a statement takes a
token unless it is called at the end of a line or the bounds of a block. -/
theorem ofText_progresses (text : String) :
    let length := byteLength text.toList
    let tokens := Tokens.ofText text.toList
    ((parseTokens length tokens).2.tokens = [endToken length] ∧
      ∀ (other : Rules) (rest : List Token) (fuel : Nat), callLimit tokens.length ≤ fuel →
        let whole := (Grammar.module (Rule.parseElse other fuel) length).run
          (initialState length (tokens ++ rest))
        whole.2.tokens = endToken length :: rest ∧ whole.1 = (ofText text).root ∧
          whole.2.arena = (ofText text).arena ∧
          whole.2.diagnostics.reverse = (ofText text).diagnostics) ∧
    ∀ (r : Grammar.Routine) (s : ParseState) (fuel : Nat), s.tokens <:+ tokens →
      s.depth ≤ depthLimit → callLimit s.tokens.length ≤ fuel →
      let after := ((r.run (Rule.parse fuel)).run s).2
      ∃ taken, s.tokens = taken ++ after.tokens ∧ (∀ t ∈ taken, t.kind ≠ .endOfStream) ∧
        after.depth = s.depth ∧
        (r.inLine = true → (r.opens = true → endsLine s.current.kind = false) →
          ∀ t ∈ taken, t.kind ≠ .newLine) ∧
        (r = .statement → s.current.kind ∉ [.newLine, .indent, .dedent, .endOfStream] →
          taken ≠ []) := by
  intro length tokens
  obtain ⟨hall, htext⟩ := inText_initialState text.toList
  refine ⟨⟨(module_parseElse text (Rule.parse 0) [] (Nat.le_refl _)).1, fun other rest fuel hfuel =>
    (module_parseElse text other rest hfuel).2⟩, fun r s fuel hs hdepth hfuel => ?_⟩
  have hw : 4 * s.following.length + 3 < fuel := by
    simp only [callLimit, ParseState.tokens, List.length_cons] at hfuel
    omega
  obtain ⟨⟨taken, htaken, hstream⟩, hsame⟩ := r.passes fuel s
  refine ⟨taken, htaken, hstream, hsame,
    fun hline hopens => Grammar.Routine.staysOnLine hline hopens hw htaken hstream, ?_⟩
  rintro rfl hkind rfl
  have hend : endsLine s.current.kind = false :=
    Bool.or_eq_false_iff.2 ⟨beq_false_of_ne fun h => hkind (by simp [h]),
      beq_false_of_ne fun h => hkind (by simp [h])⟩
  have hsuffix : s.tokens <:+ (initialState length tokens).tokens := by
    rw [hall]
    exact hs
  have hless := (htext.of_suffix hsuffix).statement_less hdepth hend hw
  have hlength := congrArg List.length htaken
  simp only [ParseState.tokens, List.nil_append, List.length_cons] at hlength
  exact absurd hlength (Nat.ne_of_gt (Nat.succ_lt_succ hless))

/-- At the start of a line with one name, a statement takes a token. -/
theorem ofText_progresses_name :
    let s := initialState 2 (Tokens.ofText ['x', '\n'])
    let after := ((Grammar.Routine.statement.run (Rule.parse (callLimit s.tokens.length))).run s).2
    ∃ taken, s.tokens = taken ++ after.tokens ∧ taken ≠ [] := by
  intro s after
  have hprogress := (ofText_progresses (String.ofList ['x', '\n'])).2 .statement s
    (callLimit s.tokens.length)
  rw [String.toList_ofList] at hprogress
  have hs : s.tokens = Tokens.ofText ['x', '\n'] := (inText_initialState ['x', '\n']).1
  obtain ⟨taken, htaken, -, -, -, htakes⟩ :=
    hprogress (hs ▸ List.suffix_refl _) (Nat.zero_le _) (Nat.le_refl _)
  exact ⟨taken, htaken, htakes rfl (by decide +kernel)⟩

end ParsedText

end TypeProbe
