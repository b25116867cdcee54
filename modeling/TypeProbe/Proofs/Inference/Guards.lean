import Mathlib.Data.Finset.Card
import TypeProbe.Inference.Guard

/-!
# Guards are exact

A guard counts its active keys beside keeping them, and lets keys in by the count. Whatever calls
are made on it, provided that only active keys are left (`Guard.Admits`), it does what a plain set
of keys does that is counted anew at each call (`GuardCall.apply`): each call keeps guard and set in
agreement (`Guard.Matches`), and so does a run. A key that is denied leaves no trace, so it must not
be left. Where each key that is let in is left as soon as what is done within has ended
(`Guard.Nested`), the guard ends as it began.
-/

namespace TypeProbe

variable {κ : Type} [DecidableEq κ] {g : Guard κ} {key : κ}

namespace Guard

/-! ## One call -/

/-- A guard with a further active key. -/
def further {κ : Type} (g : Guard κ) (key : κ) : Guard κ :=
  { g with active := key :: g.active, depth := g.depth + 1 }

/-- A key is active if it is one of the active keys. -/
theorem isActive_iff : g.isActive key = true ↔ key ∈ g.active := List.contains_iff_mem

/-- Work is denied where there is no room, then if it is going on already; else it begins. -/
theorem enter_cases (g : Guard κ) (key : κ) :
    (g.limit ≤ g.depth ∧ g.enter key = (.depthExceeded, g)) ∨
    (g.depth < g.limit ∧ key ∈ g.active ∧ g.enter key = (.cycle, g)) ∨
    (g.depth < g.limit ∧ key ∉ g.active ∧ g.enter key = (.entered, g.further key)) := by
  unfold enter
  by_cases hfull : g.limit ≤ g.depth
  · exact .inl ⟨hfull, if_pos hfull⟩
  rw [if_neg hfull]
  have hroom : g.depth < g.limit := Nat.lt_of_not_le hfull
  by_cases hactive : g.isActive key
  · exact .inr (.inl ⟨hroom, isActive_iff.1 hactive, if_pos hactive⟩)
  · exact .inr (.inr ⟨hroom, fun hmem => hactive (isActive_iff.2 hmem), if_neg hactive⟩)

/-- Work may begin on a key that is not active where there is room. -/
theorem enter_eq (hroom : g.depth < g.limit) (hfree : key ∉ g.active) :
    g.enter key = (.entered, g.further key) := by
  rcases g.enter_cases key with ⟨hfull, -⟩ | ⟨-, hactive, -⟩ | ⟨-, -, henter⟩
  · exact absurd hroom (Nat.not_lt_of_le hfull)
  · exact absurd hactive hfree
  · exact henter

/-- Work begins exactly where there is room and it is not going on already. -/
theorem enter_eq_entered_iff :
    (g.enter key).1 = .entered ↔ g.depth < g.limit ∧ key ∉ g.active := by
  refine ⟨fun h => ?_, fun h => by rw [enter_eq h.1 h.2]⟩
  rcases g.enter_cases key with ⟨-, henter⟩ | ⟨-, -, henter⟩ | ⟨hroom, hfree, -⟩
  · rw [henter] at h
    cases h
  · rw [henter] at h
    cases h
  · exact ⟨hroom, hfree⟩

/-- When work has begun, its key is active too. -/
theorem enter_of_entered (h : (g.enter key).1 = .entered) : (g.enter key).2 = g.further key := by
  obtain ⟨hroom, hfree⟩ := enter_eq_entered_iff.1 h
  rw [enter_eq hroom hfree]

/-- What is denied leaves no trace. -/
theorem enter_of_denied (h : (g.enter key).1 ≠ .entered) : (g.enter key).2 = g := by
  rcases g.enter_cases key with ⟨-, henter⟩ | ⟨-, -, henter⟩ | ⟨-, -, henter⟩
  · rw [henter]
  · rw [henter]
  · exact absurd (congrArg Prod.fst henter) h

/-- A key on which work has begun is active. -/
theorem mem_enter (h : (g.enter key).1 = .entered) : key ∈ (g.enter key).2.active := by
  rw [enter_of_entered h]
  exact List.mem_cons_self

/-- A guard that has been entered and left is as it was. -/
theorem leave_further (g : Guard κ) (key : κ) : (g.further key).leave key = g := by
  simp [leave, further]

end Guard

/-! ## Many calls -/

/-- A call on a guard. -/
inductive GuardCall (κ : Type) where
  | enter (key : κ)
  | leave (key : κ)

/-- What a call does to a set of keys that may have only so many members: a key that is entered
becomes one of them if there is room, and one that is left is none any more. -/
def GuardCall.apply (limit : Nat) (keys : Finset κ) : GuardCall κ → Finset κ
  | .enter key => if keys.card < limit then insert key keys else keys
  | .leave key => keys.erase key

namespace Guard

/-- A call is made. -/
def step (g : Guard κ) : GuardCall κ → Guard κ
  | .enter key => (g.enter key).2
  | .leave key => g.leave key

/-- Calls are made in order. -/
def run (g : Guard κ) (calls : List (GuardCall κ)) : Guard κ := calls.foldl step g

/-- A call may be made: only what is active may be left. -/
def Allows (g : Guard κ) : GuardCall κ → Prop
  | .enter _ => True
  | .leave key => g.isActive key

/-- Calls may be made in order. -/
def Admits (g : Guard κ) : List (GuardCall κ) → Prop
  | [] => True
  | call :: calls => g.Allows call ∧ (g.step call).Admits calls

/-- Properly nested calls: what has been let in is left after what is done within, and what has been
denied is not left. -/
inductive Nested : Guard κ → List (GuardCall κ) → Prop where
  /-- There are no calls. -/
  | nil (g : Guard κ) : Nested g []
  /-- A key is denied. -/
  | denied {g : Guard κ} (key : κ) (rest : List (GuardCall κ))
      (hdenied : (g.enter key).1 ≠ .entered) (hrest : Nested (g.enter key).2 rest) :
      Nested g (.enter key :: rest)
  /-- A key is let in, and left after what is done within. -/
  | within {g : Guard κ} (key : κ) (inner rest : List (GuardCall κ))
      (hentered : (g.enter key).1 = .entered) (hinner : Nested (g.enter key).2 inner)
      (hrest : Nested (((g.enter key).2.run inner).leave key) rest) :
      Nested g (.enter key :: (inner ++ .leave key :: rest))

variable {limit : Nat} {keys : Finset κ} {call : GuardCall κ} {calls more : List (GuardCall κ)}

/-- Calls after others start from the guard that those have left. -/
theorem run_append (g : Guard κ) (calls more : List (GuardCall κ)) :
    g.run (calls ++ more) = (g.run calls).run more := List.foldl_append

/-- Calls and others after them may be made if the others may be made then. -/
theorem admits_append : g.Admits (calls ++ more) ↔ g.Admits calls ∧ (g.run calls).Admits more := by
  induction calls generalizing g with
  | nil => exact (iff_of_eq (true_and _)).symm
  | cons call calls ih => exact (and_congr_right' ih).trans and_assoc.symm

/-- Properly nested calls give the guard back as it was. -/
theorem Nested.run_eq (h : g.Nested calls) : g.run calls = g := by
  -- What is done within gives back the guard that has just been entered, with its key first.
  induction h with
  | nil g => rfl
  | @denied g key rest hdenied _ ih => exact ih.trans (enter_of_denied hdenied)
  | @within g key inner rest hentered _ _ ihinner ihrest =>
    calc g.run (.enter key :: (inner ++ .leave key :: rest))
        = (((g.enter key).2.run inner).leave key).run rest := run_append _ _ _
      _ = ((g.enter key).2.run inner).leave key := ihrest
      _ = (g.further key).leave key := by rw [ihinner, enter_of_entered hentered]
      _ = g := g.leave_further key

/-- Properly nested calls leave only what is active. -/
theorem Nested.admits (h : g.Nested calls) : g.Admits calls := by
  induction h with
  | nil g => trivial
  | denied key rest _ _ ih => exact ⟨trivial, ih⟩
  | @within g key inner rest hentered hinner _ ihinner ihrest =>
    have hactive : key ∈ ((g.enter key).2.run inner).active := by
      rw [hinner.run_eq]
      exact mem_enter hentered
    exact ⟨trivial, admits_append.2 ⟨ihinner, isActive_iff.2 hactive, ihrest⟩⟩

/-! ## The set of the active keys -/

/-- A guard has a set of keys as its active keys, and counts them. -/
structure Matches (g : Guard κ) (limit : Nat) (keys : Finset κ) : Prop where
  /-- As many keys may be active as said. -/
  limit_eq : g.limit = limit
  /-- No key is active twice. -/
  nodup : g.active.Nodup
  /-- The active keys are those of the set. -/
  active : g.active.toFinset = keys
  /-- Their number is kept. -/
  depth : g.depth = g.active.length
  /-- There are no more than may be. -/
  le : g.depth ≤ limit

namespace Matches

/-- A guard without active keys has the empty set. -/
theorem ofLimit (limit : Nat) : (Guard.ofLimit (κ := κ) limit).Matches limit ∅ :=
  ⟨rfl, List.nodup_nil, rfl, rfl, Nat.zero_le limit⟩

/-- The number that is kept is that of the members of the set. -/
theorem depth_eq_card (h : g.Matches limit keys) : g.depth = keys.card := by
  rw [← h.active, List.toFinset_card_of_nodup h.nodup, h.depth]

/-- The active keys are the members of the set. -/
theorem mem_active (h : g.Matches limit keys) : key ∈ g.active ↔ key ∈ keys := by
  rw [← h.active, List.mem_toFinset]

/-- With a further key, the set has one more. -/
theorem further (h : g.Matches limit keys) (hroom : g.depth < limit) (hfree : key ∉ g.active) :
    (g.further key).Matches limit (insert key keys) where
  limit_eq := h.limit_eq
  nodup := List.nodup_cons.2 ⟨hfree, h.nodup⟩
  active := by
    show (key :: g.active).toFinset = _
    rw [List.toFinset_cons, h.active]
  depth := congrArg (· + 1) h.depth
  le := hroom

/-- The set follows when a key is entered. -/
theorem enter (h : g.Matches limit keys) (key : κ) :
    (g.enter key).2.Matches limit (if keys.card < limit then insert key keys else keys) := by
  rw [← h.depth_eq_card]
  rcases g.enter_cases key with ⟨hfull, henter⟩ | ⟨hroom, hactive, henter⟩ | ⟨hroom, hfree, henter⟩
  · rw [henter, if_neg (Nat.not_lt_of_le (h.limit_eq ▸ hfull))]
    exact h
  · rw [henter, if_pos (h.limit_eq ▸ hroom), Finset.insert_eq_of_mem (h.mem_active.1 hactive)]
    exact h
  · rw [henter, if_pos (h.limit_eq ▸ hroom)]
    exact h.further (h.limit_eq ▸ hroom) hfree

/-- The set follows when an active key is left. -/
theorem leave (h : g.Matches limit keys) (hactive : key ∈ g.active) :
    (g.leave key).Matches limit (keys.erase key) where
  limit_eq := h.limit_eq
  nodup := h.nodup.erase key
  active := by
    show (g.active.erase key).toFinset = _
    rw [← h.active]
    -- No key is active twice, so taking it out once takes it out of the set.
    ext other
    rw [List.mem_toFinset, h.nodup.mem_erase_iff, Finset.mem_erase, List.mem_toFinset]
  depth := by
    show g.depth - 1 = (g.active.erase key).length
    rw [h.depth, List.length_erase_of_mem hactive]
  le := (Nat.sub_le g.depth 1).trans h.le

/-- The set follows every call that may be made. -/
theorem step (h : g.Matches limit keys) (hcall : g.Allows call) :
    (g.step call).Matches limit (call.apply limit keys) := by
  cases call with
  | enter key => exact h.enter key
  | leave key => exact h.leave (isActive_iff.1 hcall)

/-- The set follows all calls that may be made. -/
theorem run (h : g.Matches limit keys) (hcalls : g.Admits calls) :
    (g.run calls).Matches limit (calls.foldl (GuardCall.apply limit) keys) := by
  induction calls generalizing g keys with
  | nil => exact h
  | cons call calls ih => exact ih (h.step hcalls.1) hcalls.2

/-- If anything may be active at all, leaving a key that has been denied changes the guard. -/
theorem leave_ne (h : g.Matches limit keys) (hpos : 0 < limit)
    (hdenied : (g.enter key).1 ≠ .entered) : g.leave key ≠ g := by
  -- Some key is active, this one or as many as may be, and one fewer would be counted.
  have hdepth : 0 < g.depth := by
    rcases g.enter_cases key with ⟨hfull, -⟩ | ⟨-, hactive, -⟩ | ⟨-, -, henter⟩
    · exact hpos.trans_le (h.limit_eq ▸ hfull)
    · rw [h.depth]
      exact List.length_pos_of_mem hactive
    · exact absurd (congrArg Prod.fst henter) hdenied
  intro heq
  have hless : g.depth - 1 = g.depth := congrArg Guard.depth heq
  omega

end Matches

/-- Whatever calls have been made on a guard, provided that only active keys have been left: its
active keys are those of the set, it counts them, and no more are active than may be. It lets a key
in exactly if the key is not active and there is room, and then the key is active beside the others.
If it denies the key, it is unchanged, so the key must not be left. Properly nested calls give it
back as it was. -/
theorem run_exact (limit : Nat) (calls : List (GuardCall κ))
    (h : (Guard.ofLimit limit).Admits calls) :
    let g := (Guard.ofLimit limit).run calls
    let keys := calls.foldl (GuardCall.apply limit) ∅
    (∀ key, g.isActive key ↔ key ∈ keys) ∧ g.depth = keys.card ∧ g.depth ≤ limit ∧
    (∀ key,
      ((g.enter key).1 = .entered ↔ ¬g.isActive key ∧ g.depth < limit) ∧
      ((g.enter key).1 = .entered →
        ∀ other, (g.enter key).2.isActive other ↔ other = key ∨ g.isActive other) ∧
      ((g.enter key).1 ≠ .entered → (g.enter key).2 = g ∧ (0 < limit → g.leave key ≠ g))) ∧
    ∀ inner, g.Nested inner → g.Admits inner ∧ g.run inner = g := by
  intro g keys
  have hmatches : g.Matches limit keys := (Matches.ofLimit limit).run h
  refine ⟨fun key => isActive_iff.trans hmatches.mem_active, hmatches.depth_eq_card, hmatches.le,
    fun key => ⟨?_, fun hentered other => ?_, fun hdenied => ?_⟩,
    fun inner hinner => ⟨hinner.admits, hinner.run_eq⟩⟩
  · rw [enter_eq_entered_iff, isActive_iff, hmatches.limit_eq]
    exact and_comm
  · rw [enter_of_entered hentered, isActive_iff, isActive_iff]
    exact List.mem_cons
  · exact ⟨enter_of_denied hdenied, fun hpos => hmatches.leave_ne hpos hdenied⟩

/-- A guard for two keys: one key is active after another has been denied for want of room and the
key itself because it was active. -/
theorem run_exact_two :
    let calls : List (GuardCall Nat) := [.enter 1, .enter 2, .enter 3, .leave 1, .enter 2]
    let inner : List (GuardCall Nat) := [.enter 3, .enter 1, .leave 3, .enter 2]
    let g := (Guard.ofLimit 2).run calls
    (Guard.ofLimit 2).Admits calls ∧ g.depth = 1 ∧ g.isActive 2 ∧
      (g.enter 3).1 = .entered ∧ (g.enter 3).2.isActive 2 ∧
      (g.enter 2).1 = .cycle ∧ (g.enter 2).2 = g ∧ g.leave 2 ≠ g ∧
      g.Nested inner ∧ g.run inner = g := by
  intro calls inner g
  have hcalls : (Guard.ofLimit 2).Admits calls := ⟨trivial, trivial, trivial, rfl, trivial, trivial⟩
  have hnested : g.Nested inner :=
    .within 3 [.enter 1] [.enter 2] rfl (.denied 1 [] (by decide) (.nil _))
      (.denied 2 [] (by decide) (.nil _))
  obtain ⟨hactive, hdepth, -, hkeys, hgives⟩ := run_exact 2 calls hcalls
  have hthree : (g.enter 3).1 = .entered := (hkeys 3).1.2 (by decide)
  have htwo : (g.enter 2).1 ≠ .entered := by decide
  obtain ⟨hsame, hleave⟩ := (hkeys 2).2.2 htwo
  exact ⟨hcalls, hdepth, (hactive 2).2 (by decide), hthree,
    ((hkeys 3).2.1 hthree 2).2 (.inr ((hactive 2).2 (by decide))), rfl, hsame,
    hleave Nat.two_pos, hnested, (hgives inner hnested).2⟩

end Guard

end TypeProbe
