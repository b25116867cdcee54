import TypeProbe.Proofs.Block.Fresh
import TypeProbe.Proofs.Progress.Routines

/-!
# Bounds that are never reached

Rules call each other within three bounds: for the depth of their calls, for the rounds of what they
repeat, and for the number of nested expressions. `Rule.parseElse other` does something else,
whatever it may be, where the first or the last of them is passed. The bounds for rounds grow with
the tokens behind the end of the stream, which a text does not have. Two parsers of which the second
has such tokens and something else to do go side by side (`Frame.still`, `RulesAlike.parseElse`), so
no bound is ever reached.
-/

open TypeProbe.Parser

namespace TypeProbe

/-- The parsers of all rules, which call each other at most `fuel` levels deep and in no more nested
expressions than there may be. Beyond that they do something else. -/
def Rule.parseElse (other : Rules) : (fuel : Nat) → Rules
  | 0, rule => other rule
  | fuel + 1, rule => do
    if depthLimit < (← get).depth then other rule else rule.body (Rule.parseElse other fuel)

/-- All rules keep to a relation, if what they do else does. -/
theorem Rule.parseElse_keep {R : Course} (hR : R.Blocks) {other : Rules}
    (hother : ∀ rule, Keeps R (other rule)) (fuel : Nat) (rule : Rule) :
    Keeps R (Rule.parseElse other fuel rule) := by
  induction fuel generalizing rule with
  | zero => exact hother rule
  | succ fuel ih =>
    exact (Keeps.read fun _ => rfl).bind fun s =>
      .ite (hother rule) (Rule.body_keepBlocks hR ih rule)

/-- The rules go side by side with rules that do something else beyond their bounds, where the
bounds for the depth of their calls are great enough and nested expressions are not too deep. -/
theorem RulesAlike.parseElse {F : Frame} (hF : ∀ n, F.level n → n ≤ depthLimit) (other : Rules)
    {w fuel fuel' : Nat} (hw : w ≤ fuel) (hw' : w ≤ fuel') :
    RulesAlike F w (Rule.parse fuel) (Rule.parseElse other fuel') := by
  induction fuel generalizing w fuel' with
  | zero => exact fun rule p hlt => absurd hlt (by omega)
  | succ fuel ih =>
    intro rule p hlt hfits
    obtain ⟨fuel', rfl⟩ := Nat.exists_eq_add_of_le' (show 1 ≤ fuel' by omega)
    have hcall : RulesAlike F (4 * p.after.length + rule.rank) (Rule.parse fuel)
      (Rule.parseElse other fuel') := ih (by omega) (by omega)
    intro s s' hs
    have hlevel : ¬ depthLimit < s'.depth := by
      rw [hs.depth']
      exact Nat.not_lt.2 (hF _ hs.level)
    have hrun : (Rule.parseElse other (fuel' + 1) (rule.shift F)).run s' =
        ((rule.shift F).body (Rule.parseElse other fuel')).run s' := by
      show (if depthLimit < s'.depth then _ else _ : Parser NodeId).run s' = _
      rw [if_neg hlevel]
    rw [hrun]
    exact hcall.body rule p (Nat.le_refl _) hfits s s' hs

/-! ## Tokens behind the end of the stream -/

/-- A second parser like the first, in no more nested expressions than there may be, that has tokens
behind the end of the stream. -/
def Frame.still (rest : List Token) : Frame where
  bytes := 0
  front := Arena.empty
  faults := []
  before := before_nil
  whole := true
  rest := []
  rest' := rest
  place _ := True
  level n := n ≤ depthLimit
  deeper _ h _ := h

/-- The tokens before a parser are the last of a text, whose end is the given token. -/
def ParseState.InText (last : Token) (s : ParseState) : Prop :=
  last.kind = .endOfStream ∧
    ∃ front, s.tokens = front ++ [last] ∧ ∀ t ∈ front, t.lexeme ≠ .endOfStream

namespace ParseState.InText

variable {last : Token} {s t : ParseState}

/-- A parser is side by side with one that has tokens behind the end of the stream. -/
theorem beside (h : s.InText last) (hdepth : s.depth ≤ depthLimit) (rest : List Token) :
    Beside (Frame.still rest) s.spot s { s with following := s.following ++ rest } := by
  obtain ⟨hlast, front, htokens, hfront⟩ := h
  refine ⟨rfl, rfl, (List.append_nil _).symm, ?_,
    Frame.runs_stream rfl hlast hfront htokens.symm, fun _ _ => trivial, Nat.zero_max _,
    (Arena.behind_empty _).symm, Nat.zero_le _, ?_, fun _ _ => trivial, rfl, rfl, hdepth⟩
  · simp [Frame.still, ParseState.spot]
  · simp [Frame.still]

/-- Later tokens are those of the text, too. -/
theorem of_suffix (h : s.InText last) (hsuffix : t.tokens <:+ s.tokens) : t.InText last := by
  obtain ⟨hlast, front, htokens, hfront⟩ := h
  obtain ⟨taken, htaken⟩ := hsuffix
  refine ⟨hlast, ?_⟩
  rcases List.append_eq_append_iff.1 (htaken.trans htokens) with
    ⟨more, rfl, hmore⟩ | ⟨more, -, hmore⟩
  · exact ⟨more, hmore, fun u hu => hfront u (List.mem_append_right _ hu)⟩
  · cases more with
    | nil => exact ⟨[], hmore.symm, nofun⟩
    | cons u more =>
      have hnil := List.append_eq_nil_iff.1 (List.cons.inj hmore).2.symm
      exact absurd hnil.2 (List.cons_ne_nil _ _)

/-- Where the stream ends it is the only token. -/
theorem tokens_eq (h : s.InText last) (hend : s.current.kind = .endOfStream) :
    s.tokens = [last] := by
  obtain ⟨-, front, htokens, hfront⟩ := h
  cases front with
  | nil => exact htokens
  | cons u front =>
    obtain ⟨rfl, -⟩ := List.cons.inj htokens
    exact absurd (Lexeme.eq_endOfStream hend) (hfront _ List.mem_cons_self)

end ParseState.InText

end TypeProbe
