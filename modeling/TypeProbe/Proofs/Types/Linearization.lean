import Mathlib.Algebra.Order.BigOperators.Group.List
import Mathlib.Algebra.Order.Ring.Nat
import Mathlib.Order.WellFoundedSet
import Mathlib.SetTheory.Cardinal.Order
import TypeProbe.Types.Linearization

/-!
# What a merge of orders gives

`Linearization.merge` takes elements from the front of the sequences as long as one may be taken
(`Takes`) and puts what it leaves behind them. All of its choices are about keys alone
(`Takes.map`), so the facts are proved of sequences of keys.

What is taken is a linear extension of the sequences: each of them is cut in two, a front that is a
part of what is taken and a back that is left (`Takes.cut`). Nothing is taken twice
(`Takes.nodup`). And what is taken is told by the sequences (`Takes.mem_taken_iff`): those elements
of which only such elements come before in some sequence, back to the first, so an element on a
circle of `Precedes`, or behind one, is left. Hence something is left if and only if no total order
agrees with all sequences (`Takes.agree_iff`).

`TypeStore.linearize_merges` says this of the orders of the bases of a class.
-/

namespace TypeProbe

namespace Linearization

/-! ## Orders that agree with sequences -/

section Agreement

variable {κ : Type}

/-- Whether an element comes before another in one of the sequences. -/
def Precedes (sequences : List (List κ)) (j k : κ) : Prop :=
  ∃ l ∈ sequences, [j, k].Sublist l

/-- Whether some total order agrees with all sequences. -/
def Agreeable (sequences : List (List κ)) : Prop :=
  ∃ lt : κ → κ → Prop, IsStrictTotalOrder κ lt ∧ ∀ l ∈ sequences, l.Pairwise lt

/-- In a list without repetitions what comes first has the smaller index. -/
theorem idxOf_lt_idxOf [BEq κ] [LawfulBEq κ] {l : List κ} {j k : κ} (hl : l.Nodup)
    (h : [j, k].Sublist l) : l.idxOf j < l.idxOf k := by
  induction l with
  | nil => exact absurd h (by simp)
  | cons a l ih =>
    obtain ⟨ha, hl⟩ := List.nodup_cons.1 hl
    have hne : ∀ i ∈ l, a ≠ i := fun i hi h => ha (h ▸ hi)
    cases h with
    | cons _ h =>
      rw [List.idxOf_cons_ne _ (hne j (h.subset (by simp))),
        List.idxOf_cons_ne _ (hne k (h.subset (by simp)))]
      exact Nat.succ_lt_succ (ih hl h)
    | cons_cons _ h =>
      rw [List.idxOf_cons_self, List.idxOf_cons_ne _ (hne k (List.singleton_sublist.1 h))]
      exact Nat.succ_pos _

/-- Sequences that are parts of one list without repetitions are agreeable. -/
theorem agreeable_of_sublist {sequences : List (List κ)} {order : List κ} (horder : order.Nodup)
    (h : ∀ l ∈ sequences, l.Sublist order) : Agreeable sequences := by
  classical
  -- Elements are compared by their place in the list; those that are not in it come behind.
  let _ : LinearOrder κ := linearOrderOfSTO WellOrderingRel
  have hinjective : Function.Injective fun k => toLex (order.idxOf k, k) := fun j k heq =>
    congrArg (fun place => (ofLex place).2) heq
  refine ⟨_, hinjective.isStrictTotalOrder_onFun (r := (· < ·)), fun l hl => ?_⟩
  refine List.pairwise_iff_forall_sublist.2 fun {j k} hsub => ?_
  exact Prod.Lex.toLex_lt_toLex.2 (.inl (idxOf_lt_idxOf horder (hsub.trans (h l hl))))

/-- If sequences are agreeable, there are first elements: going back from an element of them comes
to an end. -/
theorem Agreeable.acc {sequences : List (List κ)} (h : Agreeable sequences) {k : κ}
    (hk : k ∈ sequences.flatten) : Acc (Precedes sequences) k := by
  obtain ⟨lt, hlt, hpairwise⟩ := h
  have hwell : Set.WellFoundedOn {k | k ∈ sequences.flatten} lt :=
    (List.finite_toSet _).wellFoundedOn
  refine hwell.induction hk fun k _ ih => .intro k ?_
  rintro j ⟨l, hl, hsub⟩
  have hj : j ∈ sequences.flatten := List.mem_flatten.2 ⟨l, hl, hsub.subset List.mem_cons_self⟩
  exact ih j hj (List.pairwise_iff_forall_sublist.1 (hpairwise l hl) hsub)

end Agreement

variable {α κ : Type} [BEq κ]

/-! ## The steps of a merge -/

/-- The steps of a merge: from the sequences the elements of the list are taken one after the other,
and no further element may be taken from what is left of them. -/
inductive Takes (key : α → κ) : List (List α) → List α → List (List α) → Prop
  /-- No element in front may be taken. -/
  | stop {sequences : List (List α)} (h : next? key sequences = none) :
      Takes key sequences [] sequences
  /-- An element in front is taken from all sequences. -/
  | next {sequences left : List (List α)} {a : α} {taken : List α}
      (h : next? key sequences = some a)
      (rest : Takes key (sequences.map (dropFront key (key a))) taken left) :
      Takes key sequences (a :: taken) left

/-- Whether a merge comes to a point where all that is in front stands further back as well, so that
the rest is put behind what has been taken, sequence by sequence. -/
def FallsBack (key : α → κ) (sequences : List (List α)) : Prop :=
  ∃ taken left, Takes key sequences taken left ∧ left.flatten ≠ []

/-- Sequences that are empty have no say in what is taken. -/
theorem next?_filter (key : α → κ) (sequences : List (List α)) :
    next? key (sequences.filter (!·.isEmpty)) = next? key sequences := by
  have hheads : (sequences.filter (!·.isEmpty)).filterMap List.head? =
      sequences.filterMap List.head? := by
    rw [List.filterMap_filter]
    refine List.filterMap_congr fun l _ => ?_
    cases l <;> rfl
  have hbehind : ∀ k, (sequences.filter (!·.isEmpty)).any (hasBehind key k) =
      sequences.any (hasBehind key k) := by
    intro k
    rw [List.any_filter]
    congr 1
    funext l
    cases l <;> rfl
  simp only [next?, hheads, hbehind]

/-- Sequences that are empty have no say in a merge. -/
theorem mergeAt_filter (key : α → κ) (fuel : Nat) (merged : List α) (sequences : List (List α)) :
    mergeAt key fuel merged (sequences.filter (!·.isEmpty)) =
      mergeAt key fuel merged sequences := by
  cases fuel with
  | zero => rfl
  | succ fuel => simp only [mergeAt, List.filter_filter, Bool.and_self]

/-- One step of a merge, without regard to which sequences are empty. -/
theorem mergeAt_succ (key : α → κ) (fuel : Nat) (merged : List α) (sequences : List (List α)) :
    mergeAt key (fuel + 1) merged sequences =
      match next? key sequences with
      | some a => mergeAt key fuel (merged ++ [a]) (sequences.map (dropFront key (key a)))
      | none => sequences.flatten.foldl (insertNew key) merged := by
  have hmap : ∀ k, ((sequences.filter (!·.isEmpty)).map (dropFront key k)).filter (!·.isEmpty) =
      (sequences.map (dropFront key k)).filter (!·.isEmpty) := by
    intro k
    rw [List.filter_map, List.filter_map, List.filter_filter]
    congr 1
    refine List.filter_congr fun l _ => ?_
    cases l <;> simp [dropFront]
  have hflatten : (sequences.filter (!·.isEmpty)).flatten = sequences.flatten :=
    List.flatten_filter_not_isEmpty
  rw [← next?_filter, ← hflatten]
  simp only [← mergeAt_filter key fuel (merged ++ [_]) (sequences.map _), ← hmap, mergeAt_filter]
  rw [mergeAt]
  generalize sequences.filter (!·.isEmpty) = rest
  cases rest with
  | nil => rfl
  | cons l rest => rfl

/-- The first classes of an order stay the first when further ones are merged behind them. -/
theorem prefix_mergeAt (key : α → κ) (fuel : Nat) (merged : List α) (sequences : List (List α)) :
    merged <+: mergeAt key fuel merged sequences := by
  have hinsert : ∀ (as merged : List α), merged <+: as.foldl (insertNew key) merged := by
    intro as
    induction as with
    | nil => exact fun merged => List.prefix_refl merged
    | cons a as ih =>
      intro merged
      refine List.IsPrefix.trans ?_ (ih _)
      unfold insertNew
      split
      · exact List.prefix_refl merged
      · exact List.prefix_append merged [a]
  -- Each step puts one class behind those that are merged, the last one all that are left.
  induction fuel generalizing merged sequences with
  | zero => exact List.prefix_refl merged
  | succ fuel ih =>
    unfold mergeAt
    split
    · exact List.prefix_refl merged
    · split
      · exact (List.prefix_append merged _).trans (ih _ _)
      · exact hinsert _ merged

/-- A step takes something away. -/
theorem length_dropFront_lt {key : α → κ} {sequences : List (List α)} {a : α} [LawfulBEq κ]
    (h : next? key sequences = some a) :
    (sequences.map (dropFront key (key a))).flatten.length < sequences.flatten.length := by
  obtain ⟨l, hl, hhead⟩ := List.mem_filterMap.1 (List.mem_of_find?_eq_some h)
  rw [List.length_flatten, List.length_flatten, List.map_map]
  refine List.sum_lt_sum _ _ (fun l _ => ?_) ⟨l, hl, ?_⟩
  · simp only [Function.comp]
    unfold dropFront
    split <;> [rfl; (split <;> simp)]
  · obtain ⟨l', rfl⟩ := List.head?_eq_some_iff.1 hhead
    simp [dropFront]

/-- Every merge comes to a point where nothing more may be taken. -/
theorem exists_takes [LawfulBEq κ] (key : α → κ) (sequences : List (List α)) :
    ∃ taken left, Takes key sequences taken left := by
  cases h : next? key sequences with
  | none => exact ⟨[], sequences, .stop h⟩
  | some a =>
    have hlt := length_dropFront_lt h
    obtain ⟨taken, left, hrest⟩ := exists_takes key (sequences.map (dropFront key (key a)))
    exact ⟨a :: taken, left, .next h hrest⟩
termination_by sequences.flatten.length
decreasing_by exact hlt

namespace Takes

variable {key : α → κ} {sequences left : List (List α)} {taken : List α}

/-- There are no more steps than elements. -/
theorem length_le [LawfulBEq κ] (h : Takes key sequences taken left) :
    taken.length ≤ sequences.flatten.length := by
  induction h with
  | stop => exact Nat.zero_le _
  | next h _ ih => exact Nat.succ_le_of_lt (ih.trans_lt (length_dropFront_lt h))

/-- A merge with enough fuel gives what is taken, and then what is left. -/
theorem mergeAt_eq (h : Takes key sequences taken left) {fuel : Nat} (hfuel : taken.length < fuel)
    (merged : List α) :
    mergeAt key fuel merged sequences = left.flatten.foldl (insertNew key) (merged ++ taken) := by
  induction h generalizing fuel merged with
  | stop h =>
    obtain ⟨fuel, rfl⟩ := Nat.exists_eq_add_of_lt hfuel
    rw [mergeAt_succ, h, List.append_nil]
  | @next _ _ a taken h _ ih =>
    cases fuel with
    | zero => exact absurd hfuel (Nat.not_lt_zero _)
    | succ fuel =>
      rw [mergeAt_succ, h]
      simp only
      rw [ih (Nat.lt_of_succ_lt_succ hfuel), List.append_assoc, List.singleton_append]

/-- What a merge gives: its first element, what it takes and what it leaves. -/
theorem merge_eq [LawfulBEq κ] (h : Takes key sequences taken left) (first : α) :
    merge key first sequences = left.flatten.foldl (insertNew key) (first :: taken) :=
  h.mergeAt_eq (Nat.lt_succ_of_le h.length_le) [first]

/-- What is taken and what is left are told by the sequences. -/
theorem unique {taken' : List α} {left' : List (List α)} (h : Takes key sequences taken left)
    (h' : Takes key sequences taken' left') : taken = taken' ∧ left = left' := by
  induction h generalizing taken' left' with
  | stop h =>
    cases h' with
    | stop => exact ⟨rfl, rfl⟩
    | next h' => exact absurd (h.symm.trans h') (by simp)
  | next h _ ih =>
    cases h' with
    | stop h' => exact absurd (h.symm.trans h') (by simp)
    | next h' rest =>
      obtain rfl : _ = _ := Option.some.inj (h.symm.trans h')
      obtain ⟨rfl, rfl⟩ := ih rest
      exact ⟨rfl, rfl⟩

end Takes

/-! ## Sequences of keys -/

/-- Which element is next is a matter of keys. -/
theorem next?_map (key : α → κ) (sequences : List (List α)) :
    next? id (sequences.map (List.map key)) = (next? key sequences).map key := by
  have hheads : (sequences.map (List.map key)).filterMap List.head? =
      (sequences.filterMap List.head?).map key := by
    rw [List.filterMap_map, List.map_filterMap]
    exact List.filterMap_congr fun l _ => List.head?_map
  have hbehind : ∀ k, (sequences.map (List.map key)).any (hasBehind id k) =
      sequences.any (hasBehind key k) := by
    intro k
    rw [List.any_map]
    congr 1
    funext l
    simp only [Function.comp, hasBehind, id, ← List.map_tail, List.any_map]
    rfl
  rw [next?, hheads, List.find?_map]
  simp only [next?, Function.comp_def, hbehind, id]

/-- What is dropped is a matter of keys. -/
theorem dropFront_map (key : α → κ) (k : κ) (l : List α) :
    dropFront id k (l.map key) = (dropFront key k l).map key := by
  cases l with
  | nil => rfl
  | cons a l =>
    simp only [List.map_cons, dropFront, id]
    split <;> simp

/-- What is taken and what is left is a matter of keys. -/
theorem Takes.map {key : α → κ} {sequences left : List (List α)} {taken : List α}
    (h : Takes key sequences taken left) :
    Takes id (sequences.map (List.map key)) (taken.map key) (left.map (List.map key)) := by
  induction h with
  | stop h => exact .stop (by rw [next?_map, h]; rfl)
  | @next sequences left a taken h _ ih =>
    refine .next (a := key a) (by rw [next?_map, h]; rfl) ?_
    have hdrop : (sequences.map (List.map key)).map (dropFront id (key a)) =
        (sequences.map (dropFront key (key a))).map (List.map key) := by
      simp only [List.map_map]
      exact List.map_congr_left fun l _ => dropFront_map key (key a) l
    rwa [id, hdrop]

/-- What is put behind is a matter of keys. -/
theorem map_foldl_insertNew (key : α → κ) (rest merged : List α) :
    (rest.foldl (insertNew key) merged).map key =
      (rest.map key).foldl (insertNew id) (merged.map key) := by
  induction rest generalizing merged with
  | nil => rfl
  | cons a rest ih =>
    have hstep : (insertNew key merged a).map key = insertNew id (merged.map key) (key a) := by
      simp only [insertNew, List.any_map, Function.comp_def, id]
      split <;> simp
    rw [List.foldl_cons, ih, hstep, List.map_cons, List.foldl_cons]

section Keys

variable [LawfulBEq κ] {sequences left : List (List κ)} {taken : List κ} {k : κ}

/-- What is put behind is new, and is put there once. -/
theorem exists_foldl_insertNew (rest merged : List κ) :
    ∃ added, rest.foldl (insertNew id) merged = merged ++ added ∧ added.Nodup ∧
      merged.Disjoint added ∧ ∀ k, k ∈ merged ++ added ↔ k ∈ merged ∨ k ∈ rest := by
  induction rest generalizing merged with
  | nil => exact ⟨[], by simp⟩
  | cons a rest ih =>
    obtain ⟨added, heq, hnodup, hdisjoint, hmem⟩ := ih (insertNew id merged a)
    rw [List.foldl_cons, heq]
    by_cases ha : a ∈ merged
    · have hsame : insertNew id merged a = merged := by simp [insertNew, ha]
      rw [hsame] at hdisjoint hmem ⊢
      refine ⟨added, rfl, hnodup, hdisjoint, fun k => ?_⟩
      rw [hmem, List.mem_cons]
      constructor
      · exact Or.imp_right .inr
      · rintro (h | rfl | h)
        exacts [.inl h, .inl ha, .inr h]
    · have hnew : insertNew id merged a = merged ++ [a] := by simp [insertNew, ha]
      rw [hnew] at hdisjoint hmem ⊢
      rw [List.disjoint_append_left, List.singleton_disjoint] at hdisjoint
      refine ⟨a :: added, by simp, hnodup.cons hdisjoint.2, ?_, fun k => ?_⟩
      · rw [List.disjoint_cons_right]
        exact ⟨ha, hdisjoint.1⟩
      · have h := hmem k
        simp only [List.mem_append, List.mem_cons, List.not_mem_nil, or_false] at h ⊢
        tauto

/-- What is next stands in front of a sequence and further back in none. -/
theorem front_of_next? (h : next? id sequences = some k) :
    (∃ l, (k :: l) ∈ sequences) ∧ ∀ l ∈ sequences, k ∉ l.tail := by
  obtain ⟨l, hl, hhead⟩ := List.mem_filterMap.1 (List.mem_of_find?_eq_some h)
  obtain ⟨l', rfl⟩ := List.head?_eq_some_iff.1 hhead
  refine ⟨⟨l', hl⟩, fun l hl hk => ?_⟩
  have hnone := List.find?_some h
  simp only [Bool.not_eq_true', List.any_eq_false, hasBehind, id] at hnone
  exact hnone l hl (List.any_eq_true.2 ⟨k, hk, beq_self_eq_true k⟩)

/-- If nothing is next, all that is in front stands further back as well. -/
theorem behind_of_next? (h : next? id sequences = none) {l : List κ} (hl : (k :: l) ∈ sequences) :
    ∃ l' ∈ sequences, k ∈ l'.tail := by
  have hall := List.find?_eq_none.1 h k (List.mem_filterMap.2 ⟨k :: l, hl, rfl⟩)
  simp only [Bool.not_eq_true', Bool.not_eq_false, List.any_eq_true, hasBehind, id,
    beq_iff_eq] at hall
  obtain ⟨l', hl', j, hj, rfl⟩ := hall
  exact ⟨l', hl', hj⟩

/-- A sequence is what is dropped from its front and the rest. -/
theorem dropFront_cases (k : κ) (l : List κ) :
    l = k :: dropFront id k l ∨ l.head? ≠ some k ∧ dropFront id k l = l := by
  cases l with
  | nil => exact .inr ⟨by simp, rfl⟩
  | cons j l =>
    by_cases h : j = k
    · exact .inl (by simp [dropFront, h])
    · exact .inr (by simp [dropFront, h])

/-- What has been dropped, and stands further back nowhere, is gone. -/
theorem not_mem_dropFront {l : List κ} (h : k ∉ l.tail) : k ∉ dropFront id k l := by
  rcases dropFront_cases k l with heq | ⟨hhead, heq⟩
  · rw [heq] at h
    exact h
  · rw [heq]
    cases l with
    | nil => exact List.not_mem_nil
    | cons j l =>
      rintro (_ | ⟨_, hk⟩)
      exacts [hhead rfl, h hk]

/-! ## What is taken and what is left -/

namespace Takes

/-- Each sequence is cut in two: its front is taken in its order, and its back is left. -/
theorem cut (h : Takes id sequences taken left) {l : List κ} (hl : l ∈ sequences) :
    ∃ front back, l = front ++ back ∧ front.Sublist taken ∧ back ∈ left := by
  induction h generalizing l with
  | stop => exact ⟨[], l, rfl, List.nil_sublist _, hl⟩
  | @next sequences left k taken _ _ ih =>
    obtain ⟨front, back, hcut, hsub, hback⟩ := ih (List.mem_map_of_mem hl)
    rcases dropFront_cases k l with heq | ⟨_, heq⟩
    · exact ⟨k :: front, back, heq.trans (congrArg (k :: ·) hcut), hsub.cons_cons k, hback⟩
    · exact ⟨front, back, heq.symm.trans hcut, hsub.cons k, hback⟩

/-- If nothing is left, each sequence is a part of what is taken. -/
theorem sublist_taken (h : Takes id sequences taken left) (hleft : left.flatten = []) {l : List κ}
    (hl : l ∈ sequences) : l.Sublist taken := by
  obtain ⟨front, back, rfl, hsub, hback⟩ := h.cut hl
  rwa [List.flatten_eq_nil_iff.1 hleft back hback, List.append_nil]

/-- What is left is the back of a sequence. -/
theorem exists_suffix (h : Takes id sequences taken left) {back : List κ} (hback : back ∈ left) :
    ∃ l ∈ sequences, back <:+ l := by
  induction h with
  | stop => exact ⟨back, hback, List.suffix_rfl⟩
  | @next sequences left k taken _ _ ih =>
    obtain ⟨_, hmem, hsuffix⟩ := ih hback
    obtain ⟨l, hl, rfl⟩ := List.mem_map.1 hmem
    refine ⟨l, hl, hsuffix.trans ?_⟩
    rcases dropFront_cases k l with heq | ⟨_, heq⟩
    · exact ⟨[k], heq.symm⟩
    · exact ⟨[], heq⟩

omit [LawfulBEq κ] in
/-- Nothing may be taken from what is left. -/
theorem stands (h : Takes id sequences taken left) : next? id left = none := by
  induction h with
  | stop h => exact h
  | next _ _ ih => exact ih

/-- What is taken stands in a sequence. -/
theorem mem_of_taken (h : Takes id sequences taken left) (hk : k ∈ taken) :
    k ∈ sequences.flatten := by
  induction h with
  | stop => exact absurd hk List.not_mem_nil
  | next h _ ih =>
    rcases List.mem_cons.1 hk with rfl | hk
    · obtain ⟨l, hl⟩ := (front_of_next? h).1
      exact List.mem_flatten.2 ⟨_, hl, List.mem_cons_self⟩
    · obtain ⟨_, hmem, hk⟩ := List.mem_flatten.1 (ih hk)
      obtain ⟨l, hl, rfl⟩ := List.mem_map.1 hmem
      refine List.mem_flatten.2 ⟨l, hl, ?_⟩
      rcases dropFront_cases _ l with heq | ⟨_, heq⟩
      · rw [heq]
        exact List.mem_cons_of_mem _ hk
      · exact heq ▸ hk

/-- All that stands in the sequences is taken or left. -/
theorem mem_iff (h : Takes id sequences taken left) :
    k ∈ sequences.flatten ↔ k ∈ taken ∨ k ∈ left.flatten := by
  constructor
  · intro hk
    obtain ⟨l, hl, hk⟩ := List.mem_flatten.1 hk
    obtain ⟨front, back, rfl, hsub, hback⟩ := h.cut hl
    rcases List.mem_append.1 hk with hk | hk
    · exact .inl (hsub.subset hk)
    · exact .inr (List.mem_flatten.2 ⟨back, hback, hk⟩)
  · rintro (hk | hk)
    · exact h.mem_of_taken hk
    · obtain ⟨back, hback, hk⟩ := List.mem_flatten.1 hk
      obtain ⟨l, hl, hsuffix⟩ := h.exists_suffix hback
      exact List.mem_flatten.2 ⟨l, hl, hsuffix.subset hk⟩

/-- What is taken is taken once and is left nowhere. -/
theorem nodup (h : Takes id sequences taken left) :
    taken.Nodup ∧ taken.Disjoint left.flatten := by
  induction h with
  | stop => exact ⟨List.nodup_nil, List.disjoint_nil_left _⟩
  | @next sequences left k taken h rest ih =>
    have hgone : k ∉ (sequences.map (dropFront id (id k))).flatten := by
      intro hk
      obtain ⟨_, hmem, hk⟩ := List.mem_flatten.1 hk
      obtain ⟨l, hl, rfl⟩ := List.mem_map.1 hmem
      exact not_mem_dropFront ((front_of_next? h).2 l hl) hk
    rw [rest.mem_iff, not_or] at hgone
    exact ⟨ih.1.cons hgone.1, List.disjoint_cons_left.2 ⟨hgone.2, ih.2⟩⟩

/-- What precedes something that is taken is taken before it. -/
theorem sublist_of_precedes (h : Takes id sequences taken left) {j : κ} (hk : k ∈ taken)
    (hjk : Precedes sequences j k) : [j, k].Sublist taken := by
  obtain ⟨l, hl, hsub⟩ := hjk
  obtain ⟨front, back, rfl, hfront, hback⟩ := h.cut hl
  refine List.Sublist.trans ?_ hfront
  -- The back holds nothing that is taken, so both stand in the front.
  have hnot : k ∉ back := fun hmem =>
    h.nodup.2 hk (List.mem_flatten.2 ⟨back, hback, hmem⟩)
  obtain ⟨first, second, heq, hfirst, hsecond⟩ := List.sublist_append_iff.1 hsub
  cases second.eq_nil_or_concat with
  | inl hnil => rwa [heq, hnil, List.append_nil]
  | inr hconcat =>
    obtain ⟨init, last, rfl⟩ := hconcat
    have hlast : k = last := by
      have := congrArg List.getLast? heq
      simpa using this
    exact absurd (hsecond.subset (by simp [hlast])) hnot

/-- What is taken are the elements before which only such elements come, back to the first. -/
theorem mem_taken_iff (h : Takes id sequences taken left) :
    k ∈ taken ↔ k ∈ sequences.flatten ∧ Acc (Precedes sequences) k := by
  constructor
  · refine fun hk => ⟨h.mem_of_taken hk, ?_⟩
    -- The induction is on the place among what is taken.
    induction hn : taken.idxOf k using Nat.strong_induction_on generalizing k with
    | _ n ih =>
      refine .intro k fun j hjk => ?_
      have hsub := h.sublist_of_precedes hk hjk
      have hj : j ∈ taken := hsub.subset List.mem_cons_self
      refine ih _ ?_ hj rfl
      exact hn ▸ idxOf_lt_idxOf h.nodup.1 hsub
  · rintro ⟨hk, hacc⟩
    -- If an element were left whose predecessors are all taken, it would be in front and nowhere
    -- further back, so the merge would not stand still.
    induction hacc with
    | intro k _ ih =>
      refine (h.mem_iff.1 hk).resolve_right fun hleft => ?_
      have htaken : ∀ j, Precedes sequences j k → j ∈ taken := fun j hjk => by
        obtain ⟨l, hl, hsub⟩ := hjk
        exact ih j ⟨l, hl, hsub⟩ (List.mem_flatten.2 ⟨l, hl, hsub.subset List.mem_cons_self⟩)
      have hnowhere : ∀ back ∈ left, k ∉ back.tail := by
        intro back hback hmem
        obtain ⟨l, hl, hsuffix⟩ := h.exists_suffix hback
        cases back with
        | nil => exact absurd hmem List.not_mem_nil
        | cons j back =>
          have hsub : [j, k].Sublist (j :: back) := (List.singleton_sublist.2 hmem).cons_cons j
          exact h.nodup.2 (htaken j ⟨l, hl, hsub.trans hsuffix.sublist⟩)
            (List.mem_flatten.2 ⟨_, hback, List.mem_cons_self⟩)
      obtain ⟨back, hback, hmem⟩ := List.mem_flatten.1 hleft
      cases back with
      | nil => exact absurd hmem List.not_mem_nil
      | cons j back =>
        rcases List.mem_cons.1 hmem with rfl | hmem
        · obtain ⟨l, hl, hbehind⟩ := behind_of_next? h.stands hback
          exact hnowhere l hl hbehind
        · exact hnowhere _ hback hmem

/-- Something is left if and only if no total order agrees with the sequences. -/
theorem agreeable_iff (h : Takes id sequences taken left) :
    Agreeable sequences ↔ left.flatten = [] := by
  constructor
  · intro hagree
    refine List.eq_nil_iff_forall_not_mem.2 fun k hk => ?_
    have hmem := h.mem_iff.2 (.inr hk)
    exact h.nodup.2 (h.mem_taken_iff.2 ⟨hmem, hagree.acc hmem⟩) hk
  · exact fun hnil => agreeable_of_sublist h.nodup.1 fun l hl => h.sublist_taken hnil hl

end Takes

/-! ## What a merge gives -/

/-- A merge gives its first element, and then, each once, what it takes and what it adds. -/
theorem exists_merge_eq (k : κ) (sequences : List (List κ)) :
    ∃ taken left added, Takes id sequences taken left ∧
      merge id k sequences = k :: (taken ++ added) ∧ added.Nodup ∧ (k :: taken).Disjoint added ∧
        ∀ j, j ∈ merge id k sequences ↔ j = k ∨ j ∈ sequences.flatten := by
  obtain ⟨taken, left, h⟩ := exists_takes id sequences
  obtain ⟨added, heq, hnodup, hdisjoint, hmem⟩ := exists_foldl_insertNew left.flatten (k :: taken)
  refine ⟨taken, left, added, h, (h.merge_eq k).trans heq, hnodup, hdisjoint, fun j => ?_⟩
  rw [h.merge_eq, heq, hmem, List.mem_cons, h.mem_iff, or_assoc]

/-- A merge gives its first element first. -/
theorem head?_merge (k : κ) (sequences : List (List κ)) :
    (merge id k sequences).head? = some k := by
  obtain ⟨_, _, _, -, heq, -, -, -⟩ := exists_merge_eq k sequences
  rw [heq]
  rfl

/-- A merge gives its first element and what stands in the sequences. -/
theorem mem_merge_iff {j k : κ} {sequences : List (List κ)} :
    j ∈ merge id k sequences ↔ j = k ∨ j ∈ sequences.flatten := by
  obtain ⟨_, _, _, -, -, -, -, hmem⟩ := exists_merge_eq k sequences
  exact hmem j

/-- Behind its first element a merge gives nothing twice. -/
theorem nodup_tail_merge (k : κ) (sequences : List (List κ)) :
    (merge id k sequences).tail.Nodup := by
  obtain ⟨taken, left, added, h, heq, hnodup, hdisjoint, _⟩ := exists_merge_eq k sequences
  rw [heq]
  exact h.nodup.1.append hnodup (List.disjoint_cons_left.1 hdisjoint).2

/-- A merge gives nothing twice, unless its first element stands in the sequences as well and going
back from it comes to an end. -/
theorem nodup_merge_iff {k : κ} {sequences : List (List κ)} :
    (merge id k sequences).Nodup ↔ ¬(k ∈ sequences.flatten ∧ Acc (Precedes sequences) k) := by
  obtain ⟨taken, left, added, h, heq, hnodup, hdisjoint, _⟩ := exists_merge_eq k sequences
  have htail := nodup_tail_merge k sequences
  rw [heq] at htail ⊢
  rw [← h.mem_taken_iff, List.nodup_cons, List.mem_append]
  have hadded := (List.disjoint_cons_left.1 hdisjoint).1
  exact ⟨fun hall hk => hall.1 (.inl hk), fun hk => ⟨not_or.2 ⟨hk, hadded⟩, htail⟩⟩

/-- If a total order agrees with the sequences, each is a part of what a merge gives. -/
theorem Agreeable.sublist_merge (hagree : Agreeable sequences) (k : κ) {l : List κ}
    (hl : l ∈ sequences) : l.Sublist (merge id k sequences) := by
  obtain ⟨taken, left, added, h, heq, -, -, -⟩ := exists_merge_eq k sequences
  have hsub := h.sublist_taken (h.agreeable_iff.1 hagree) hl
  exact heq ▸ (hsub.trans (List.sublist_append_left _ _)).cons k

end Keys

section Elements

variable [LawfulBEq κ] (key : α → κ) (sequences : List (List α))

/-- The keys of what a merge gives are what a merge of the keys gives. -/
theorem map_merge (first : α) : (merge key first sequences).map key =
    merge id (key first) (sequences.map (List.map key)) := by
  obtain ⟨taken, left, h⟩ := exists_takes key sequences
  rw [h.merge_eq, h.map.merge_eq, map_foldl_insertNew, List.map_flatten, List.map_cons]

/-- A merge falls back if and only if no total order agrees with its sequences. -/
theorem fallsBack_iff : FallsBack key sequences ↔ ¬Agreeable (sequences.map (List.map key)) := by
  obtain ⟨taken, left, h⟩ := exists_takes key sequences
  rw [h.map.agreeable_iff, ← List.map_flatten, List.map_eq_nil_iff]
  constructor
  · rintro ⟨taken', left', h', hleft⟩
    obtain ⟨rfl, rfl⟩ := h.unique h'
    exact hleft
  · exact fun hleft => ⟨taken, left, h, hleft⟩

end Elements

end Linearization

namespace TypeStore

open Linearization

/-- Keys are equal if they are found to be equal. -/
instance : LawfulBEq (ClassId ⊕ TypeId) where
  eq_of_beq {j k} h := by
    cases j <;> cases k
    · exact congrArg _ (eq_of_beq h)
    · cases h
    · cases h
    · exact congrArg _ (eq_of_beq h)
  rfl {k} := by
    cases k with
    | inl detail => exact beq_self_eq_true detail
    | inr id => exact beq_self_eq_true id

/-- The order of a class and its ancestors begins with the class. -/
theorem head?_linearize (s : TypeStore) (classType : TypeId) (bases : List TypeId) :
    (s.linearize classType bases).head? = some classType := by
  obtain ⟨rest, hrest⟩ := prefix_mergeAt s.classKey
    ((bases.map s.ancestry ++ [bases]).flatten.length + 1) [classType]
    (bases.map s.ancestry ++ [bases])
  rw [linearize, merge, ← hrest]
  rfl

/-- The classes of the orders that are merged behind a class: those of its bases, and the list of
the bases. -/
def orders (s : TypeStore) (bases : List TypeId) : List (List (ClassId ⊕ TypeId)) :=
  (bases.map s.ancestry ++ [bases]).map (List.map s.classKey)

/-- A base stands in its own order. -/
theorem mem_ancestry (s : TypeStore) (base : TypeId) : base ∈ s.ancestry base := by
  unfold ancestry
  split <;> exact List.mem_cons_self

/-- The order of a base whose class comes first in its own order has the classes of that order. -/
theorem map_ancestry {s : TypeStore} {base : TypeId} {c : ClassDetail} (h : s.HeadsItsOrder base)
    (hc : s.classOf? base = some c) : (s.ancestry base).map s.classKey = c.mro.map s.classKey := by
  obtain ⟨c', hc', hhead⟩ := h
  obtain rfl := Option.some.inj (hc.symm.trans hc')
  obtain ⟨t, ht, hkey⟩ := Option.map_eq_some_iff.1 hhead
  obtain ⟨rest, hmro⟩ := List.head?_eq_some_iff.1 ht
  simp only [ancestry, hc, hmro, List.tail_cons, List.map_cons, hkey]

/-- What is merged behind a class comes from the orders of the bases. -/
theorem mem_orders {s : TypeStore} {bases : List TypeId} {k : ClassId ⊕ TypeId} :
    k ∈ (s.orders bases).flatten ↔ ∃ base ∈ bases, k ∈ (s.ancestry base).map s.classKey := by
  rw [orders, ← List.map_flatten, List.flatten_append, List.flatten_singleton, List.map_append,
    List.mem_append]
  constructor
  · rintro (hk | hk)
    · obtain ⟨t, ht, rfl⟩ := List.mem_map.1 hk
      obtain ⟨_, hmem, ht⟩ := List.mem_flatten.1 ht
      obtain ⟨base, hbase, rfl⟩ := List.mem_map.1 hmem
      exact ⟨base, hbase, List.mem_map_of_mem ht⟩
    · obtain ⟨base, hbase, rfl⟩ := List.mem_map.1 hk
      exact ⟨base, hbase, List.mem_map_of_mem (s.mem_ancestry base)⟩
  · rintro ⟨base, hbase, hk⟩
    obtain ⟨t, ht, rfl⟩ := List.mem_map.1 hk
    exact .inl (List.mem_map_of_mem (List.mem_flatten.2 ⟨_, List.mem_map_of_mem hbase, ht⟩))

/-- The classes in the order of a class and its ancestors. -/
theorem map_linearize (s : TypeStore) (classType : TypeId) (bases : List TypeId) :
    (s.linearize classType bases).map s.classKey =
      merge id (s.classKey classType) (s.orders bases) :=
  map_merge s.classKey _ classType

/-- The order of a class that comes in no order of its bases begins with the class, has no class
twice, and has the classes of these orders and no other. A total order that agrees with the orders
of the bases and with the list of the bases exists if and only if the merge does not fall back;
each of these orders is then a part of that of the class. Where it falls back, what is left follows
order by order. The order of a base is its class's own if its class comes first in it
(`HeadsItsOrder`), and is the base alone if its class has none. -/
theorem linearize_merges (s : TypeStore) (classType : TypeId) (bases : List TypeId)
    (hnew : ∀ base ∈ bases, s.classKey classType ∉ (s.ancestry base).map s.classKey) :
    (s.linearize classType bases).head? = some classType ∧
    ((s.linearize classType bases).map s.classKey).Nodup ∧
    (∀ k, k ∈ (s.linearize classType bases).map s.classKey ↔
      k = s.classKey classType ∨ ∃ base ∈ bases, k ∈ (s.ancestry base).map s.classKey) ∧
    (FallsBack s.classKey (bases.map s.ancestry ++ [bases]) ↔ ¬Agreeable (s.orders bases)) ∧
    (Agreeable (s.orders bases) → ∀ order ∈ s.orders bases,
      order.Sublist ((s.linearize classType bases).map s.classKey)) ∧
    (∀ taken left, Takes s.classKey (bases.map s.ancestry ++ [bases]) taken left →
      s.linearize classType bases =
        left.flatten.foldl (Linearization.insertNew s.classKey) (classType :: taken)) ∧
    ∀ base ∈ bases,
      ((∀ c, s.classOf? base = some c → c.mro = []) → s.ancestry base = [base]) ∧
      ∀ c, s.classOf? base = some c → s.HeadsItsOrder base →
        (s.ancestry base).map s.classKey = c.mro.map s.classKey := by
  have hmem : s.classKey classType ∉ (s.orders bases).flatten := fun hk =>
    have ⟨base, hbase, hk⟩ := mem_orders.1 hk
    hnew base hbase hk
  rw [map_linearize]
  refine ⟨head?_linearize s classType bases, nodup_merge_iff.2 fun hk => hmem hk.1, fun k => ?_,
    fallsBack_iff _ _, fun hagree order horder => hagree.sublist_merge _ horder,
    fun taken left h => h.merge_eq classType,
    fun base _ => ⟨fun hnone => ?_, fun c hc hheads => map_ancestry hheads hc⟩⟩
  · rw [mem_merge_iff, mem_orders]
  · unfold ancestry
    split
    · rename_i c hc
      rw [hnone c hc, List.tail_nil]
    · rfl

/-- Four classes: two are derived from the first, and the last from these two. -/
def diamond : TypeStore :=
  let type (i : Nat) : TypeRecord := ⟨classFlags, .nominal ⟨i⟩ none none⟩
  let detail (mro : List TypeId) : ClassDetail := { (default : ClassDetail) with mro }
  { TypeStore.initial with
    types := #[type 0, type 1, type 2, type 3]
    classes := #[detail [⟨0⟩], detail [⟨1⟩, ⟨0⟩], detail [⟨2⟩, ⟨0⟩], detail []] }

theorem linearize_merges_diamond :
    (∀ base ∈ [(⟨1⟩ : TypeId), ⟨2⟩], diamond.classKey ⟨3⟩ ∉
      (diamond.ancestry base).map diamond.classKey) ∧
    ((diamond.linearize ⟨3⟩ [⟨1⟩, ⟨2⟩]).map diamond.classKey).Nodup ∧
    (Agreeable (diamond.orders [⟨1⟩, ⟨2⟩]) → ∀ order ∈ diamond.orders [⟨1⟩, ⟨2⟩],
      order.Sublist ((diamond.linearize ⟨3⟩ [⟨1⟩, ⟨2⟩]).map diamond.classKey)) ∧
    diamond.linearize ⟨3⟩ [⟨1⟩, ⟨2⟩] = [⟨3⟩, ⟨1⟩, ⟨2⟩, ⟨0⟩] :=
  have hnew : ∀ base ∈ [(⟨1⟩ : TypeId), ⟨2⟩], diamond.classKey ⟨3⟩ ∉
      (diamond.ancestry base).map diamond.classKey := by decide
  have h := linearize_merges diamond ⟨3⟩ [⟨1⟩, ⟨2⟩] hnew
  ⟨hnew, h.2.1, h.2.2.2.2.1, by decide⟩

end TypeStore

end TypeProbe
