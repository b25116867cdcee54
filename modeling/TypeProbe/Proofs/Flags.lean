import TypeProbe.Label

/-!
# Flag sets

A flag set is a word with one bit for each flag. What is in a set that is made of others is said
here flag by flag.
-/

namespace TypeProbe

namespace Flags

variable {α : Type} [FlagLabelled α]

/-- A set with a further flag has that one and those it had. -/
theorem has_insert (s : Flags α) (f g : α) :
    (s.insert f).has g = (s.has g || decide (FlagLabelled.place f = FlagLabelled.place g)) := by
  show (s.bits ||| 2 ^ FlagLabelled.place f).testBit _ = _
  rw [Nat.testBit_or, Nat.testBit_two_pow]
  rfl

/-- A further flag changes nothing about others. -/
theorem has_insert_of_ne (s : Flags α) {f g : α}
    (h : FlagLabelled.place f ≠ FlagLabelled.place g) : (s.insert f).has g = s.has g := by
  rw [has_insert, decide_eq_false h, Bool.or_false]

@[simp] theorem has_empty (g : α) : (empty : Flags α).has g = false := Nat.zero_testBit _

/-- A set made of a list has the flags of the list. -/
theorem has_ofList (fs : List α) (g : α) :
    (ofList fs).has g = fs.any fun f => FlagLabelled.place f = FlagLabelled.place g := by
  have hfold : ∀ s : Flags α, (fs.foldl insert s).has g =
      (s.has g || fs.any fun f => FlagLabelled.place f = FlagLabelled.place g) := by
    induction fs with
    | nil => simp
    | cons f fs ih =>
      intro s
      rw [List.foldl_cons, ih, has_insert, List.any_cons, Bool.or_assoc]
  rw [ofList, hfold, has_empty, Bool.false_or]

/-- A set without a flag does not have it. -/
theorem has_erase_self (s : Flags α) (f : α) : (s.erase f).has f = false := by
  unfold erase
  split
  · rename_i h
    unfold has at h ⊢
    rw [Nat.testBit_eq_decide_div_mod_eq, decide_eq_true_iff] at h
    rw [Nat.testBit_eq_decide_div_mod_eq, decide_eq_false_iff_not]
    -- The bit is the parity of what is above the lower bits, which goes down by one.
    have hdiv := Nat.sub_mul_div s.bits (2 ^ FlagLabelled.place f) 1
    rw [Nat.mul_one] at hdiv
    show ¬(s.bits - 2 ^ FlagLabelled.place f) / 2 ^ FlagLabelled.place f % 2 = 1
    omega
  · rename_i h
    exact eq_false_of_ne_true h

end Flags

end TypeProbe
