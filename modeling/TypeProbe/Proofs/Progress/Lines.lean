import TypeProbe.Proofs.Progress.Bounds

/-!
# Parsers that stay on their line

A parser of expressions or of a simple statement goes side by side with itself whatever comes behind
the end of the line (`Routine.alike`), so it does not take that end (`Routine.staysOnLine`).
-/

open TypeProbe.Parser

namespace TypeProbe

namespace Grammar.Routine

/-- What parsers do is alike if they are. -/
theorem alike_effect {α β : Type} {F : Frame} {p : Spot} {g : α → β} {x : Parser α} {x' : Parser β}
    {post : α → Spot → Prop} (h : Alike F p g x x' post) :
    Alike F p id (effect x) (effect x') fun _ _ => True :=
  Alike.map h (fun _ => rfl) fun _ _ _ _ => trivial

/-- A parser of expressions or of a simple statement goes side by side with itself on a line. -/
theorem alike {rest : List Token} {fuel : Nat} {p : Spot} {r : Routine} (hline : r.inLine = true)
    (hopens : r.opens = true → endsLine p.token.kind = false)
    (hw : 4 * p.after.length + 3 < fuel) :
    Alike (Frame.upTo rest) p id (r.run (Rule.parse fuel)) (r.run (Rule.parse fuel))
      fun _ _ => True := by
  have hcall : RulesAlike (Frame.upTo rest) fuel (Rule.parse fuel) (Rule.parse fuel) :=
    RulesAlike.parse _ (Nat.le_refl _) (Nat.le_refl _)
  have hw' : 4 * p.after.length < fuel := by omega
  cases r with
  | testList => exact alike_effect (Alike.testList hcall hw)
  | testItems => exact alike_effect (Alike.testItems hcall hw)
  | targetList => exact alike_effect (Alike.targetList hcall hw')
  | testOrStar => exact alike_effect (Alike.testOrStar hcall hw)
  | starOrBitwiseOr =>
    exact alike_effect (Alike.starOr hcall hw' (Alike.bitwiseOr hcall hw'))
  | test => exact alike_effect (Alike.test hcall hw')
  | lambda => exact alike_effect (Alike.lambda hcall (hopens rfl) hw'.le)
  | yieldExpression => exact alike_effect (Alike.yieldExpression hcall (hopens rfl) hw'.le)
  | orTest => exact alike_effect (Alike.orTest hcall hw')
  | andTest =>
    exact alike_effect (Alike.keywordChain .and .and fun q hq => Alike.notTest hcall (by
      have hless := hq.1
      omega))
  | notTest => exact alike_effect (Alike.notTest hcall hw')
  | comparison => exact alike_effect (Alike.comparison hcall hw')
  | bitwiseOr => exact alike_effect (Alike.bitwiseOr hcall hw')
  | binaryLevels levels =>
    exact alike_effect (Alike.binaryLevels levels fun q hq => Alike.factor hcall (by
      have hless := hq.1
      omega))
  | factor => exact alike_effect (Alike.factor hcall hw')
  | power => exact alike_effect (Alike.power hcall hw')
  | atomExpression => exact alike_effect (Alike.atomExpression hcall hw'.le)
  | argumentList => exact alike_effect (Alike.argumentList hcall hw)
  | subscriptList => exact alike_effect (Alike.subscriptList hcall hw)
  | sliceOrTest => exact alike_effect (Alike.sliceOrTest hcall hw)
  | atom => exact alike_effect (Alike.atom hcall hw'.le)
  | stringList => exact alike_effect Alike.stringList
  | parenthesized => exact alike_effect (Alike.parenthesized hcall (hopens rfl) hw'.le)
  | listDisplay => exact alike_effect (Alike.listDisplay hcall (hopens rfl) hw'.le)
  | braceDisplay => exact alike_effect (Alike.braceDisplay hcall (hopens rfl) hw'.le)
  | comprehension expression start => exact alike_effect (Alike.comprehension hcall hw'.le)
  | parameterList terminator allowHints =>
    exact alike_effect (Alike.parameterList hcall terminator allowHints hw)
  | name missing => exact alike_effect (Alike.name missing)
  | simpleStatement => exact alike_effect (Alike.simpleStatement hcall hw)
  | raiseStatement => exact alike_effect (Alike.raiseStatement hcall (hopens rfl) hw'.le)
  | expressionStatement => exact alike_effect (Alike.expressionStatement hcall hw)
  | assigned => exact alike_effect (Alike.assigned hcall hw)
  | assignment start left => exact alike_effect (Alike.assignment hcall hw)
  | importStatement => exact alike_effect (Alike.importStatement (hopens rfl))
  | fromStatement => exact alike_effect (Alike.fromStatement (hopens rfl))
  | moduleName allowRelative => exact alike_effect (Alike.moduleName allowRelative)
  | _ => cases hline

end Grammar.Routine

/-- A parser of expressions or of a simple statement takes tokens of its line only. -/
theorem Grammar.Routine.staysOnLine {r : Grammar.Routine} {fuel : Nat} {s : ParseState}
    (hline : r.inLine = true) (hopens : r.opens = true → endsLine s.current.kind = false)
    (hw : 4 * s.following.length + 3 < fuel) {taken : List Token}
    (htaken : s.tokens = taken ++ ((r.run (Rule.parse fuel)).run s).2.tokens)
    (hstream : ∀ t ∈ taken, t.kind ≠ .endOfStream) : ∀ t ∈ taken, t.kind ≠ .newLine := by
  cases hfound : taken.find? fun t => t.kind == .newLine with
  | none => exact fun t ht hkind => List.find?_eq_none.1 hfound t ht (beq_iff_eq.2 hkind)
  | some last =>
    -- Both runs would go past the end of the line, behind which they have the same tokens.
    obtain ⟨hlast, line, more, rfl, hbefore⟩ := List.find?_eq_some_iff_append.1 hfound
    have hinside : ∀ t ∈ line, endsLine t.kind = false := by
      intro t ht
      have hnot := hbefore t ht
      rw [Bool.not_eq_true'] at hnot
      exact Bool.or_eq_false_iff.2
        ⟨hnot, beq_false_of_ne (hstream t (List.mem_append_left _ ht))⟩
    rw [List.append_assoc, List.cons_append] at htaken
    obtain ⟨p, htoken, hfollowing, hbeside⟩ := s.beside_upTo htaken (eq_of_beq hlast) hinside
    have hshort : p.after.length ≤ s.following.length := by
      rw [hfollowing, List.length_append]
      exact Nat.le_add_right ..
    obtain ⟨q, -, hq, -⟩ := Grammar.Routine.alike hline (fun h => htoken ▸ hopens h)
      (Nat.lt_of_le_of_lt (by omega) hw) s s hbeside
    have hlength := congrArg List.length hq.after
    simp only [Frame.upTo, ParseState.tokens, List.length_append, List.length_cons] at hlength
    omega

end TypeProbe
