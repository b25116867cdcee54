import Mathlib.Data.Int.ModEq
import TypeProbe.Proofs.Inference.Explained

/-!
# How exact arithmetic on literals is

An expression that is put together from whole numbers by signs, sums, differences and products
denotes a whole number (`Arena.Denotes`). If its type is a literal, the value of the literal agrees
with the denoted number modulo `2 ^ 64`, and is equal to it exactly if that can be the value of a
literal type (`Checker.literal_exact_iff`). Sums, differences and products are literals only where
they can be; but the least value of a literal type is left as it is when its sign is turned
(`Values.turned`), which gives a literal where there is none for the denoted number.

The invariant, over the parts of an expression, is `TypeStore.Reduces`: the type that a part is taken
to have is unknown, or that of whole numbers, with a value that agrees if it has one.
-/

namespace TypeProbe

/-- What an operator with one operand makes of a whole number, if it is a sign. -/
def Operator.signed? : Operator → Option (Int → Int)
  | .add => some fun v => v
  | .subtract => some fun v => -v
  | _ => none

/-- What an operator with two operands makes of whole numbers, if it is that of sums, differences
or products. -/
def Operator.exact? : Operator → Option (Int → Int → Int)
  | .add => some (· + ·)
  | .subtract => some (· - ·)
  | .multiply => some (· * ·)
  | _ => none

/-- A node is an expression of whole numbers that denotes a number. -/
inductive Arena.Denotes (a : Arena) : NodeId → Int → Prop
  /-- A whole number below `2 ^ 63`. -/
  | number {n : NodeId} {literal : NumberLiteral} {v : Nat}
    (hform : a.form? n = some (.number literal)) (hreal : literal.isImaginary = false)
    (hvalue : literal.value = .int v) (hlt : v < Values.literalLimit) : Denotes a n v
  /-- A number with a sign. -/
  | signed {n operand : NodeId} {token : Token} {op : Operator} {f : Int → Int} {v : Int}
    (hform : a.form? n = some (.unaryOperation op token operand)) (hop : op.signed? = some f)
    (h : Denotes a operand v) : Denotes a n (f v)
  /-- A sum, a difference or a product. -/
  | calculated {n left right : NodeId} {token : Token} {parenthesized : Bool} {op : Operator}
    {f : Int → Int → Int} {v w : Int}
    (hform : a.form? n = some (.binaryOperation op token left right parenthesized))
    (hop : op.exact? = some f) (hl : Denotes a left v) (hr : Denotes a right w) :
    Denotes a n (f v w)

namespace Values

/-- The values of literal types of whole numbers. -/
theorem isLiteralRange_iff {n : Int} : isLiteralRange n = true ↔ -2 ^ 63 ≤ n ∧ n < 2 ^ 63 := by
  rw [isLiteralRange, Bool.and_eq_true, decide_eq_true_iff, decide_eq_true_iff]
  rfl

/-- A literal value, if there is one, is a whole number that can be one, and agrees with another
number modulo `2 ^ 64`. -/
def Reduces (v : Int) (literal : Option LiteralValue) : Prop :=
  ∀ value ∈ literal, ∃ k, value = .int k ∧ isLiteralRange k = true ∧ k ≡ v [ZMOD 2 ^ 64]

/-- No value agrees with anything. -/
theorem reduces_none (v : Int) : Reduces v none := nofun

/-- A literal with its sign turned can be one, and agrees with the number with its sign turned. -/
theorem turned_modEq {n : Int} (h : isLiteralRange n = true) :
    isLiteralRange (turned n) = true ∧ turned n ≡ -n [ZMOD 2 ^ 64] := by
  unfold turned
  split
  · exact ⟨‹_›, .refl _⟩
  · rename_i hturned
    refine ⟨h, Int.modEq_iff_dvd.2 ?_⟩
    rw [isLiteralRange_iff] at h hturned
    -- Only the least value has no other sign, and twice that is `-2 ^ 64`.
    obtain rfl : n = -2 ^ 63 := by omega
    decide

/-- Two values of literal types that agree modulo `2 ^ 64` are equal. -/
theorem eq_of_modEq {k v : Int} (hk : isLiteralRange k = true) (hv : -2 ^ 63 ≤ v ∧ v < 2 ^ 63)
    (h : k ≡ v [ZMOD 2 ^ 64]) : k = v := by
  obtain ⟨q, hq⟩ := Int.modEq_iff_dvd.1 h
  rw [isLiteralRange_iff] at hk
  omega

/-- Numbers that agree with others can be calculated with in their place. -/
theorem exact_modEq {op : Operator} {f : Int → Int → Int} (hop : op.exact? = some f) {k l v w : Int}
    (hk : k ≡ v [ZMOD 2 ^ 64]) (hl : l ≡ w [ZMOD 2 ^ 64]) : f k l ≡ f v w [ZMOD 2 ^ 64] := by
  unfold Operator.exact? at hop
  split at hop
  · cases hop
    exact hk.add hl
  · cases hop
    exact hk.sub hl
  · cases hop
    exact hk.mul hl
  · cases hop

variable {b : Builtins} {op : Operator} {f : Int → Int → Int}

/-- A calculation gives the literal of its exact result if that can be one, and else the plain type
of whole numbers. -/
theorem arithmetic_eq (hop : op.exact? = some f) (l r : Option LiteralValue) :
    arithmetic b op 0 l r = (·.instanceOf b.int) ∨
    ∃ k n, l = some (.int k) ∧ r = some (.int n) ∧ isLiteralRange (f k n) = true ∧
      arithmetic b op 0 l r = (·.literal b.int (.int (f k n))) := by
  have hdivide : op ≠ .divide := by
    rintro rfl
    cases hop
  have hfold : ∀ k n, fold? op k n = (some (f k n)).filter isLiteralRange := by
    intro k n
    unfold Operator.exact? at hop
    split at hop
    all_goals first | cases hop; rfl | cases hop
  have hplain : ∀ s : TypeStore, s.instanceOf (if op = .divide then b.float else b.int) =
      s.instanceOf b.int := fun s => by rw [if_neg hdivide]
  unfold arithmetic
  dsimp only
  simp only [if_true, hplain]
  split
  · rename_i value hvalue
    split at hvalue
    · rename_i k n
      obtain ⟨heq, hrange⟩ := Option.filter_eq_some_iff.1 ((hfold k n).symm.trans hvalue)
      cases heq
      exact .inr ⟨k, n, rfl, rfl, hrange, rfl⟩
    · cases hvalue
  · exact .inl rfl

end Values

open TypeStore Values

/-- A type that an expression of whole numbers may be taken to have. -/
def TypeStore.Reduces (s : TypeStore) (b : Builtins) (v : Int) (t : TypeId) : Prop :=
  s.isUnknown t = true ∨ ∃ literal, s.IsNominal t b.int none literal ∧ Values.Reduces v literal

/-- Whether a type is one is a matter of what it is. -/
theorem TypeStore.reduces_congr {s s' : TypeStore} {b : Builtins} {v : Int} {t : TypeId}
    (h : s'.get? t = s.get? t) : s'.Reduces b v t ↔ s.Reduces b v t := by
  unfold TypeStore.Reduces isUnknown shape? IsNominal
  rw [h]

namespace Memory

variable {p : Program} {cut : Query → Prop} {m : Memory} {op : Operator}
  {operand left right t : TypeId} {v w : Int}

/-- The type of a number with a sign. -/
theorem Signs.reduces (hm : m.Regular p) (hbuiltins : p.builtins = Builtins.foreknown.1)
    {f : Int → Int} (hop : op.signed? = some f) (h : m.Signs p op operand t)
    (hoperand : m.store.Reduces p.builtins v operand) :
    m.store.Reduces p.builtins (f v) t := by
  obtain ⟨s, hs, hids, hwithin, hunknown, hliteral, hplain⟩ := h
  have hint : p.builtins.int.In Builtins.foreknown.2 := hbuiltins ▸ sound_foreknown.2.int
  have hin := (hasAll_cons.1 hids).1
  rcases (reduces_congr (hwithin.get?_eq hin)).1 hoperand with h | ⟨literal, h, hvalue⟩
  · obtain rfl := hunknown h
    exact .inl (Evaluation.isUnknown_unknown hm)
  cases literal with
  | none => exact .inr ⟨none, (hplain h).isNominal_instanceOf hint, reduces_none _⟩
  | some value =>
    obtain ⟨k, rfl, hrange, hmod⟩ := hvalue _ rfl
    have hsigned := hliteral k h
    unfold Operator.signed? at hop
    split at hop
    · cases hop
      obtain rfl := hsigned.2 rfl
      exact .inr ⟨_, h.mono hwithin, hvalue⟩
    · cases hop
      obtain ⟨hturned, hagrees⟩ := turned_modEq hrange
      refine .inr ⟨_, (hsigned.1 rfl).isNominal_literal, ?_⟩
      rintro _ ⟨⟩
      exact ⟨_, rfl, hturned, hagrees.trans hmod.neg⟩
    · cases hop

/-- The type of a sum, a difference or a product. -/
theorem Calculates.reduces (hm : m.Regular p) (hbuiltins : p.builtins = Builtins.foreknown.1)
    {f : Int → Int → Int} (hop : op.exact? = some f) (h : m.Calculates p op left right t)
    (hleft : m.store.Reduces p.builtins v left) (hright : m.store.Reduces p.builtins w right) :
    m.store.Reduces p.builtins (f v w) t := by
  obtain ⟨s, hs, hids, hwithin, hnumbers, hunknown⟩ := h
  have hint : p.builtins.int.In Builtins.foreknown.2 := hbuiltins ▸ sound_foreknown.2.int
  obtain ⟨hl, hids⟩ := hasAll_cons.1 hids
  obtain ⟨hr, -⟩ := hasAll_cons.1 hids
  have hnone : t = .unknown → m.store.Reduces p.builtins (f v w) t := by
    rintro rfl
    exact .inl (Evaluation.isUnknown_unknown hm)
  rcases (reduces_congr (hwithin.get?_eq hl)).1 hleft with h | ⟨l, hl, hlvalue⟩
  · exact hnone (hunknown (.inl h))
  rcases (reduces_congr (hwithin.get?_eq hr)).1 hright with h | ⟨r, hr, hrvalue⟩
  · exact hnone (hunknown (.inr ⟨⟨l, hl⟩, h⟩))
  have hmade := hnumbers l r hl hr
  rcases arithmetic_eq (b := p.builtins) hop l r with heq | ⟨k, n, rfl, rfl, hrange, heq⟩
  · rw [heq] at hmade
    exact .inr ⟨none, hmade.isNominal_instanceOf hint, reduces_none _⟩
  · rw [heq] at hmade
    refine .inr ⟨_, hmade.isNominal_literal, ?_⟩
    rintro _ ⟨⟩
    obtain ⟨_, ⟨⟩, -, hk⟩ := hlvalue _ rfl
    obtain ⟨_, ⟨⟩, -, hn⟩ := hrvalue _ rfl
    exact ⟨_, rfl, hrange, exact_modEq hop hk hn⟩

/-- The types of expressions of whole numbers, where what is kept of nodes is explained. -/
theorem reduces_of_denotes (hm : m.Explained p cut)
    (hbuiltins : p.builtins = Builtins.foreknown.1) {n : NodeId} (hn : p.arena.Denotes n v)
    (ht : m.Takes p cut n t) :
    m.store.Reduces p.builtins v t := by
  -- A part that is cut off is unknown, so that what is kept of the node decides.
  have htaken : ∀ {n t v}, m.Takes p cut n t →
      (m.Explains p cut n t → m.store.Reduces p.builtins v t) → m.store.Reduces p.builtins v t :=
    fun ht h => (ht.explains hm).elim h fun hunknown => .inl hunknown.1
  induction hn generalizing t with
  | @number n literal v hform hreal hvalue hlt =>
    refine htaken ht fun h => ?_
    unfold Explains at h
    rw [hform] at h
    have hnumber : Values.number p.builtins literal = (·.literal p.builtins.int (.int v)) := by
      funext s
      rw [Values.number, hreal, hvalue]
      rfl
    dsimp only at h
    rw [hnumber] at h
    refine .inr ⟨_, h.isNominal_literal, ?_⟩
    rintro _ ⟨⟩
    refine ⟨v, rfl, isLiteralRange_iff.2 ⟨?_, hlt⟩, .refl _⟩
    omega
  | @signed n operand token op f v hform hop _ ih =>
    refine htaken ht fun h => ?_
    unfold Explains at h
    rw [hform] at h
    have hnot : op ≠ .not := by
      rintro rfl
      cases hop
    obtain ⟨type, htype, hsigns⟩ := h hnot
    exact hsigns.reduces hm.toRegular hbuiltins hop (ih htype)
  | @calculated n left right token _ op f v w hform hop _ _ ihl ihr =>
    refine htaken ht fun h => ?_
    unfold Explains at h
    rw [hform] at h
    have hplain : op ≠ .and ∧ op ≠ .or ∧ op.isComparison = false := by
      unfold Operator.exact? at hop
      split at hop
      all_goals first | decide | cases hop
    obtain ⟨l, r, hl, hr, hcalculates⟩ := h hplain.1 hplain.2.1 hplain.2.2
    exact hcalculates.reduces hm.toRegular hbuiltins hop (ihl hl) (ihr hr)

end Memory

namespace Checker

/-- Whatever a checker for a file has been asked before: if the type of an expression of whole
numbers, with signs, sums, differences and products, is a literal, its value agrees with the number
that the expression denotes modulo `2 ^ 64`. It is that number exactly if that can be the value of a
literal type. -/
theorem literal_exact_iff {name text : String} {c c' : Checker}
    (h : Reached (SourceFile.ofText name text) c) {n : NodeId} {v : Int}
    (hn : (SourceFile.ofText name text).parsed.arena.Denotes n v) {t : TypeId}
    (ht : c.typeOf? n = some (some t, c')) {d : ClassId} {k : Int}
    (hk : c'.store.instance? t = some (d, some (.int k))) :
    d = c'.program.builtins.int ∧ -2 ^ 63 ≤ k ∧ k < 2 ^ 63 ∧ k ≡ v [ZMOD 2 ^ 64] ∧
      (k = v ↔ -2 ^ 63 ≤ v ∧ v < 2 ^ 63) := by
  have hreached := Reached.answered (q := .node n) h trivial ht
  have hprogram := hreached.program_eq
  obtain ⟨asked, htraced⟩ := hreached.exists_traced
  have hdenotes : c'.program.arena.Denotes n v := by rwa [hprogram]
  have hbuiltins : c'.program.builtins = Builtins.foreknown.1 := by rw [hprogram]
  rcases Memory.reduces_of_denotes (htraced.explained fun _ hcut => hcut) hbuiltins hdenotes
    (.inl (h.lookup_of_typeOf? ht)) with hunknown | ⟨literal, hnominal, hvalue⟩
  · have hnone := instance?_of_isUnknown hunknown
    rw [show c'.memory.store.instance? t = _ from hk] at hnone
    cases hnone
  · cases hk.symm.trans hnominal.instance?_eq
    obtain ⟨_, ⟨⟩, hrange, hmod⟩ := hvalue _ rfl
    obtain ⟨hlower, hupper⟩ := isLiteralRange_iff.1 hrange
    refine ⟨rfl, hlower, hupper, hmod, ?_, fun hv => eq_of_modEq hrange hv hmod⟩
    rintro rfl
    exact ⟨hlower, hupper⟩

/-- The least value of a literal type, which can be calculated but not written, stays as it is when
its sign is turned, though the number that is denoted is no value of a literal type. -/
theorem literal_exact_iff_leastNumber :
    let file := SourceFile.ofText "a.py" "-(-9223372036854775807 - 1)\n"
    ∃ t c' d, file.checker.typeOf? 4 = some (some t, c') ∧
      c'.store.instance? t = some (d, some (.int (-2 ^ 63))) ∧
      file.parsed.arena.Denotes 4 (2 ^ 63) ∧
      ((-2 ^ 63 : Int) = 2 ^ 63 ↔ -2 ^ 63 ≤ (2 ^ 63 : Int) ∧ (2 ^ 63 : Int) < 2 ^ 63) := by
  intro file
  obtain ⟨h0, h1, h2, h3, h4⟩ :
      file.parsed.arena.form? 0 = some (.number ⟨.int (2 ^ 63 - 1), true, false⟩) ∧
      file.parsed.arena.form? 1 =
        some (.unaryOperation .subtract ⟨⟨2, 1⟩, .operator .subtract⟩ 0) ∧
      file.parsed.arena.form? 2 = some (.number ⟨.int 1, true, false⟩) ∧
      file.parsed.arena.form? 3 =
        some (.binaryOperation .subtract ⟨⟨23, 1⟩, .operator .subtract⟩ 1 2 true) ∧
      file.parsed.arena.form? 4 =
        some (.unaryOperation .subtract ⟨⟨0, 1⟩, .operator .subtract⟩ 3) := by
    decide +kernel
  have hnumbers := Arena.Denotes.calculated h3 rfl (.signed h1 rfl (.number h0 rfl rfl (by decide)))
    (.number h2 rfl rfl (by decide))
  have hdenotes : file.parsed.arena.Denotes 4 (2 ^ 63) := .signed h4 rfl hnumbers
  have hrun : (file.checker.askWithin? 5 (.node 4)).map (fun r =>
      (r.1.bind r.2.store.instance?).bind (·.2)) = some (some (.int (-2 ^ 63))) := by
    decide +kernel
  obtain ⟨⟨t?, c'⟩, hask, hliteral⟩ := Option.map_eq_some_iff.1 hrun
  obtain ⟨⟨d, literal⟩, hinstance, rfl⟩ := Option.bind_eq_some_iff.1 hliteral
  obtain ⟨t, rfl, hinstance⟩ := Option.bind_eq_some_iff.1 hinstance
  have ht : file.checker.typeOf? 4 = some (some t, c') := ask?_eq_some_iff.2 ⟨5, hask⟩
  exact ⟨t, c', d, ht, hinstance, hdenotes,
    (literal_exact_iff .start hdenotes ht hinstance).2.2.2.2⟩

end Checker

end TypeProbe
