import TypeProbe.Proofs.Inference.Explained
import TypeProbe.Proofs.Inference.Repeats
import TypeProbe.Proofs.Spelling
import TypeProbe.Proofs.Token.Numerals

/-!
# Types of whole numbers

The node of a whole number comes from a token of the text that is a numeral. Its type is the literal
of the number, if the numeral has digits and the number is below `2 ^ 63`. From there on, and
without digits, it is no type of whole numbers, but that of floating-point numbers
(`Checker.typeOf?_number`): the type goes by what the token stands for, which is a whole number only
below `2 ^ 63`, and not by how it is written.
-/

namespace TypeProbe

/-- A number is written within a range of a text, by a token that is a numeral. -/
def NumberLiteral.IsWrittenIn (literal : NumberLiteral) (text : List Char) (r : TextRange)
    (radix : Radix) (values : List Nat) : Prop :=
  ∃ before word after, text = before ++ word ++ after ∧
    ⟨⟨byteLength before, byteLength word⟩, .number literal⟩ ∈ Tokens.ofText text ∧
    r.start ≤ byteLength before ∧ byteLength (before ++ word) ≤ r.stop ∧ Numeral radix values word

/-- The node of a whole number has a numeral within it, unless the number is imaginary. -/
theorem ParsedText.exists_numeral {text : String} {n : NodeId} {literal : NumberLiteral}
    {r : TextRange} (hform : (ofText text).arena.form? n = some (.number literal))
    (hr : (ofText text).arena.range? n = some r) (hinteger : literal.isInteger = true)
    (himaginary : literal.isImaginary = false) :
    ∃ radix values, literal.IsWrittenIn text.toList r radix values ∧
      literal.value = NumberLiteral.integerValue radix.base values := by
  obtain ⟨⟨range, x⟩, ht, rfl, hstart, hstop⟩ := exists_token hform rfl hr
  obtain ⟨before, word, after, radix, values, htext, rfl, hnumeral, hvalue⟩ :=
    Tokens.numeral_of_mem ht rfl hinteger himaginary
  refine ⟨radix, values, ⟨before, word, after, htext, ht, hstart, ?_, hnumeral⟩, hvalue⟩
  rw [byteLength_append]
  exact hstop

namespace Query

variable {p : Program} {m : Memory} {n : NodeId} {literal : NumberLiteral}

/-- The type of a number is made at once. -/
theorem compute_of_number (hform : p.arena.form? n = some (.number literal)) (m : Memory) :
    Expressions.compute p n m =
      .done (some (Values.number p.builtins literal m.store).1,
        { m with store := (Values.number p.builtins literal m.store).2 }) := by
  unfold Expressions.compute
  rw [hform]
  rfl

/-- The node of a number has a type, if nothing is being worked out. -/
theorem exists_answer_number (hform : p.arena.form? n = some (.number literal)) (hm : m.Idle) :
    ∃ t m', (Query.node n).answer p m = some (some t, m') := by
  cases hkept : m.nodeTypes.lookup n with
  | some type => exact ⟨type, m, answer_node_of_kept hkept⟩
  | none =>
    have hnode : ∃ t m', Expressions.node p n m = .done (some t, m') := by
      unfold Expressions.node Evaluation.guarded
      rw [get_bind, hkept]
      dsimp only
      rw [get_bind, enter_of_idle hm]
      show ∃ t m', (Expressions.compute p n _).bind _ = .done (some t, m')
      rw [compute_of_number hform]
      exact ⟨_, _, rfl⟩
    obtain ⟨t, m', hdone⟩ := hnode
    exact ⟨t, m', answer_of_rule (q := .node n) hdone⟩

end Query

/-- The value of a number decides on its type. -/
theorem Values.number_eq (b : Builtins) {literal : NumberLiteral}
    (himaginary : literal.isImaginary = false) :
    (∀ k, literal.value = .int k → number b literal = (·.literal b.int (.int k))) ∧
      ((∀ k, literal.value ≠ .int k) → number b literal = (·.instanceOf b.float)) := by
  obtain ⟨value, isInteger, isImaginary⟩ := literal
  obtain rfl : isImaginary = false := himaginary
  refine ⟨fun k hk => ?_, fun hnone => ?_⟩
  · obtain rfl : value = .int k := hk
    rfl
  · cases value with
    | int k => exact absurd rfl (hnone k)
    | float x => rfl

namespace Checker

/-- Whatever a checker for a file has been asked before, it answers which type the node of a whole
number has that is not imaginary. The number is a numeral of the text: below `2 ^ 63` the type is
its literal, and else, or without digits, that of floating-point numbers. -/
theorem typeOf?_number {name text : String} {c : Checker}
    (h : Reached (SourceFile.ofText name text) c) {n : NodeId} {literal : NumberLiteral}
    {r : TextRange}
    (hform : (SourceFile.ofText name text).parsed.arena.form? n = some (.number literal))
    (hr : (SourceFile.ofText name text).parsed.arena.range? n = some r)
    (hinteger : literal.isInteger = true) (himaginary : literal.isImaginary = false) :
    ∃ radix values t c', literal.IsWrittenIn text.toList r radix values ∧
      c.typeOf? n = some (some t, c') ∧
      c'.store.instance? t =
        if values ≠ [] ∧ Nat.ofDigits radix.base values.reverse < 2 ^ 63 then
          some (c'.program.builtins.int, some (.int (Nat.ofDigits radix.base values.reverse : Nat)))
        else some (c'.program.builtins.float, none) := by
  obtain ⟨radix, values, hwritten, hvalue⟩ :=
    ParsedText.exists_numeral hform hr hinteger himaginary
  have hprogram : c.program.arena.form? n = some (.number literal) := by rwa [h.program_eq]
  obtain ⟨t, m', hanswer⟩ := Query.exists_answer_number hprogram h.idle
  have ht : c.typeOf? n = some (some t, { c with memory := m' }) := by
    rw [typeOf?, ask?, hanswer]
    rfl
  refine ⟨radix, values, t, _, hwritten, ht, ?_⟩
  -- The checker keeps the answer, and every type that it keeps is explained.
  obtain ⟨asked, htraced⟩ := (Reached.answered (q := .node n) h trivial ht).exists_traced
  have hexplained :=
    (htraced.explained fun _ hcut => hcut).explains n t (h.lookup_of_typeOf? ht)
  unfold Memory.Explains at hexplained
  rw [hprogram] at hexplained
  dsimp only at hexplained
  have hbuiltins : c.program.builtins = Builtins.foreknown.1 := by rw [h.program_eq]
  -- It is explained by the value of the number, which is a whole number only below the limit.
  obtain ⟨hint, hfloat⟩ := Values.number_eq c.program.builtins himaginary
  show m'.store.instance? t = _
  by_cases hexact : values ≠ [] ∧ Nat.ofDigits radix.base values.reverse < 2 ^ 63
  · rw [if_pos hexact]
    rw [hint _ (hvalue.trans (NumberLiteral.integerValue_eq hexact.1 rfl hexact.2))] at hexplained
    exact hexplained.isNominal_literal.instance?_eq
  · rw [if_neg hexact]
    have hnone : ∀ k, literal.value ≠ .int k := by
      rw [hvalue]
      exact NumberLiteral.integerValue_ne fun hne => Nat.not_lt.1 fun hlt => hexact ⟨hne, hlt⟩
    rw [hfloat hnone] at hexplained
    exact (hexplained.isNominal_instanceOf
      (hbuiltins ▸ TypeStore.sound_foreknown.2.float)).instance?_eq

/-- The first whole number whose type is that of floating-point numbers. -/
theorem typeOf?_number_first :
    let file := SourceFile.ofText "a.py" "9223372036854775808\n"
    ∃ literal r, file.parsed.arena.form? 0 = some (.number literal) ∧
      file.parsed.arena.range? 0 = some r ∧ literal.isInteger = true ∧
      literal.isImaginary = false ∧
      ∃ radix values t c', literal.IsWrittenIn "9223372036854775808\n".toList r radix values ∧
        file.checker.typeOf? 0 = some (some t, c') ∧
        c'.store.instance? t =
          (if values ≠ [] ∧ Nat.ofDigits radix.base values.reverse < 2 ^ 63 then
            some (c'.program.builtins.int,
              some (.int (Nat.ofDigits radix.base values.reverse : Nat)))
          else some (c'.program.builtins.float, none)) ∧
        c'.store.instance? t = some (c'.program.builtins.float, none) := by
  intro file
  obtain ⟨hform, hr⟩ : file.parsed.arena.form? 0 =
        some (.number ⟨.float (Binary64.ofNat (2 ^ 63)), true, false⟩) ∧
      file.parsed.arena.range? 0 = some ⟨0, 19⟩ := by
    decide +kernel
  obtain ⟨radix, values, t, c', hwritten, ht, htype⟩ := typeOf?_number .start hform hr rfl rfl
  refine ⟨_, _, hform, hr, rfl, rfl, radix, values, t, c', hwritten, ht, htype, ?_⟩
  have hrun : (file.checker.askWithin? 5 (.node 0)).map (fun r =>
      r.1.map fun t => decide (r.2.store.instance? t = some (r.2.program.builtins.float, none))) =
        some (some true) := by
    decide +kernel
  obtain ⟨⟨t?, c''⟩, hask, hfloat⟩ := Option.map_eq_some_iff.1 hrun
  cases (ask?_eq_some_iff.2 ⟨5, hask⟩).symm.trans ht
  exact of_decide_eq_true (Option.some.inj hfloat)

end Checker

end TypeProbe
