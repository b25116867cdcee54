import Mathlib.Logic.Relation
import Mathlib.Order.WellFounded
import TypeProbe.Proofs.Inference.Passing

/-!
# Where evaluation ends

Every question takes energy from those it leads to or ranks higher, except that calls lead to calls.
So evaluation ends unless a call is passed on for ever (`Query.Endless`), through the members for
calls of values that are values themselves (`Query.answer_eq_none_iff`).
-/

namespace TypeProbe.Query

open Evaluation Relation

variable {p : Program}

/-- One question leads to another one, directly or through others. -/
def Reaches (p : Program) : State → State → Prop := ReflTransGen (Leads p)

/-- A call that is passed on from callee to callee for ever, time and again by a value. -/
def Endless (p : Program) (callee : TypeId) (arguments : List TypeId) (m : Memory) : Prop :=
  ∃ chain : Nat → TypeId × Memory, chain 0 = (callee, m) ∧
    (∀ i, PassesOn p arguments (chain i) (chain (i + 1))) ∧
    ∀ i, ∃ j, i ≤ j ∧ (chain j).2.store.IsValue (chain j).1

/-- A call leads to another one. -/
def CallLeads (p : Program) (a b : State) : Prop :=
  a.1.isCall = true ∧ b.1.isCall = true ∧ Leads p a b

/-- There is an end to the calls that a call leads to, through calls alone. -/
abbrev CallsEnd (p : Program) (a : State) : Prop := Acc (fun b a => CallLeads p a b) a

/-- What a question leads to is sound. -/
theorem Reaches.sound (htree : p.arena.ChildrenFirst) {a b : State}
    (h : Reaches p a b) (ha : Sound p a) : Sound p b := by
  induction h with
  | refl => exact ha
  | tail _ hleads ih => exact (hleads.permits htree ih).1

/-! ## Energy and rank -/

/-- There is an end to what a question other than a call leads to, if there is where less energy is
left: the others of these questions rank lower and are no calls either. -/
theorem ends_of_not_call (htree : p.arena.ChildrenFirst) {energy : Nat} {a : State}
    (ha : Sound p a) (hle : a.2.energy p.arena.size ≤ energy) (hnoCall : a.1.isCall = false)
    (hless : ∀ b, Reaches p a b → b.2.energy p.arena.size < energy → Ends p b) : Ends p a := by
  induction hrank : a.1.rank a.2.store using Nat.strong_induction_on generalizing a with
  | h rank ih =>
    refine .intro _ fun b hleads => ?_
    obtain ⟨hb, hpermits⟩ := hleads.permits htree ha
    rcases hpermits with ⟨-, hlt⟩ | ⟨hle', hnoCall', hlt⟩ | ⟨-, hcall, -⟩
    · exact hless b (.single hleads) (Nat.lt_of_lt_of_le hlt hle)
    · exact ih _ (hrank ▸ hlt) hb (Nat.le_trans hle' hle) hnoCall'
        (fun c hc => hless c (.head hleads hc)) rfl
    · rw [hnoCall] at hcall
      cases hcall

/-- There is an end to what a call leads to, if there is to the calls, and where less energy is
left. -/
theorem ends_of_callsEnd (htree : p.arena.ChildrenFirst) {energy : Nat} {a : State}
    (hcalls : CallsEnd p a) (ha : Sound p a) (hle : a.2.energy p.arena.size ≤ energy)
    (hcall : a.1.isCall = true)
    (hless : ∀ b, Reaches p a b → b.2.energy p.arena.size < energy → Ends p b) : Ends p a := by
  induction hcalls with
  | intro a _ ih =>
    refine .intro _ fun b hleads => ?_
    obtain ⟨hb, hpermits⟩ := hleads.permits htree ha
    have hless' : ∀ c, Reaches p b c → c.2.energy p.arena.size < energy → Ends p c :=
      fun c hc => hless c (.head hleads hc)
    rcases hpermits with ⟨hnoCall, -⟩ | ⟨hle', hnoCall, -⟩ | ⟨hle', -, hcall'⟩
    · rw [hcall] at hnoCall
      cases hnoCall
    · exact ends_of_not_call htree hb (Nat.le_trans hle' hle) hnoCall hless'
    · exact ih b ⟨hcall, hcall', hleads⟩ hb (Nat.le_trans hle' hle) hcall' hless'

/-- There is an end to what a question leads to if there is an end to the calls among that. -/
theorem ends_of_calls (htree : p.arena.ChildrenFirst) {a : State} (ha : Sound p a)
    (hcalls : ∀ b, Reaches p a b → b.1.isCall = true → CallsEnd p b) : Ends p a := by
  induction henergy : a.2.energy p.arena.size using Nat.strong_induction_on generalizing a with
  | h energy ih =>
    have hless : ∀ b, Reaches p a b → b.2.energy p.arena.size < energy → Ends p b :=
      fun b hb hlt => ih _ hlt (hb.sound htree ha) (fun c hc => hcalls c (hb.trans hc)) rfl
    have hle := Nat.le_of_eq henergy
    cases hcall : a.1.isCall with
    | false => exact ends_of_not_call htree ha hle hcall hless
    | true => exact ends_of_callsEnd htree (hcalls a .refl hcall) ha hle hcall hless

/-! ## Calls -/

/-- Among callees of which each passes a call on to the next one there is always a further value:
the others are followed by ever earlier types. -/
theorem exists_isValue {arguments : List TypeId} {chain : Nat → TypeId × Memory}
    (hsound : ∀ i, (chain i).2.store.Sound)
    (h : ∀ i, PassesOn p arguments (chain i) (chain (i + 1))) (i : Nat) :
    ∃ j, i ≤ j ∧ (chain j).2.store.IsValue (chain j).1 := by
  by_contra hnone
  -- From `i` on every callee would be an earlier type than the one before it.
  have hdown : ∀ k, (chain (i + k)).1.index + k ≤ (chain i).1.index := by
    intro k
    induction k with
    | zero => exact Nat.le_refl _
    | succ k ih =>
      have hlt := (h (i + k)).index_lt (hsound (i + k))
        fun hvalue => hnone ⟨i + k, Nat.le_add_right i k, hvalue⟩
      rw [← Nat.add_assoc i k 1]
      omega
  have hlast := hdown ((chain i).1.index + 1)
  omega

/-- A call is passed on for ever if there is no end to the calls it leads to. -/
theorem endless_of_not_callsEnd (htree : p.arena.ChildrenFirst) {callee : TypeId}
    {arguments : List TypeId} {m : Memory} (ha : Sound p (.call callee arguments, m))
    (h : ¬CallsEnd p (.call callee arguments, m)) :
    Endless p callee arguments m := by
  obtain ⟨f, hstart, hstep⟩ := not_acc_iff_exists_descending_chain.1 h
  -- The chain is one of calls with the arguments of the first one.
  have hcalls : ∀ i, ∃ callee m, f i = (.call callee arguments, m) ∧ Sound p (f i) := by
    intro i
    induction i with
    | zero => exact ⟨callee, m, hstart, hstart ▸ ha⟩
    | succ i ih =>
      obtain ⟨callee, m, heq, hsound⟩ := ih
      obtain ⟨-, hcall, hleads⟩ := hstep i
      rw [heq] at hleads hsound
      obtain ⟨found, hfound, -⟩ := (leads_call_iff htree hcall hsound).1 hleads
      exact ⟨found, (f (i + 1)).2, Prod.ext hfound rfl, (hleads.permits htree hsound).1⟩
  choose callees memories hf using hcalls
  have hchain : ∀ i, PassesOn p arguments (callees i, memories i)
      (callees (i + 1), memories (i + 1)) := by
    intro i
    obtain ⟨-, hcall, hleads⟩ := hstep i
    have hsound := (hf i).2
    rw [(hf i).1] at hleads hsound
    rw [(hf (i + 1)).1] at hleads hcall
    obtain ⟨found, hfound, hpasses⟩ := (leads_call_iff htree hcall hsound).1 hleads
    cases hfound
    exact hpasses
  refine ⟨fun i => (callees i, memories i), ?_, hchain, exists_isValue (fun i => ?_) hchain⟩
  · have hzero := (hf 0).1
    rw [hstart] at hzero
    cases hzero
    rfl
  · have hsound := (hf i).2
    rw [(hf i).1] at hsound
    exact hsound.1.store

/-- A call that is passed on for ever has no answer. -/
theorem Endless.answer_eq_none (htree : p.arena.ChildrenFirst) {callee : TypeId}
    {arguments : List TypeId} {m : Memory} (ha : Sound p (.call callee arguments, m))
    (h : Endless p callee arguments m) : (Query.call callee arguments).answer p m = none := by
  obtain ⟨chain, hstart, hchain, -⟩ := h
  -- If the call had an answer, there would be an end to the calls that it leads to.
  let f : Nat → State := fun i => (.call (chain i).1 arguments, (chain i).2)
  have hzero : f 0 = (.call callee arguments, m) := by
    show (Query.call (chain 0).1 arguments, (chain 0).2) = _
    rw [hstart]
  have hleads : ∀ i, Sound p (f i) → Leads p (f i) (f (i + 1)) := fun i hsound =>
    (leads_call_iff htree rfl hsound).2 ⟨_, rfl, hchain i⟩
  have hsound : ∀ i, Sound p (f i) := by
    intro i
    induction i with
    | zero => exact hzero ▸ ha
    | succ i ih => exact ((hleads i ih).permits htree ih).1
  rw [← Option.not_isSome_iff_eq_none]
  intro hsome
  have hends := (answer_isSome_iff_ends (a := (.call callee arguments, m))).1 hsome
  exact not_acc_iff_exists_descending_chain.2 ⟨f, hzero, fun i => hleads i (hsound i)⟩ hends

/-- A value that is the member for calls of its own class passes a call on to itself for ever. -/
theorem endless_of_member?_self {callee : TypeId} {t : TypeRecord} {detail : ClassId}
    {typeArguments : Option (List TypeId)} {literal : Option LiteralValue} {m : Memory}
    (arguments : List TypeId) (hget : m.store.get? callee = some t)
    (hclass : t.isInstantiable = false) (hshape : t.shape = .nominal detail typeArguments literal)
    (hmember : m.store.member? detail "__call__" = some callee)
    (hgetter : m.getters.lookup callee = none) : Endless p callee arguments m := by
  have hvalue : m.store.IsValue callee := ⟨t, detail, typeArguments, literal, hget, hclass, hshape⟩
  exact ⟨fun _ => (callee, m), rfl,
    fun _ => passesOn_of_member? arguments hget hclass hshape hmember hvalue hgetter,
    fun i => ⟨i, Nat.le_refl i, hvalue⟩⟩

/-- What leads to a question without an answer has none. -/
theorem Reaches.answer_eq_none {a b : State} (h : Reaches p a b) (hb : b.1.answer p b.2 = none) :
    a.1.answer p a.2 = none := by
  induction h using ReflTransGen.head_induction_on with
  | refl => exact hb
  | head hleads _ ih => exact hleads.answer_eq_none ih

/-- A question has no answer exactly if it leads to a call that is passed on for ever. -/
theorem answer_eq_none_iff (htree : p.arena.ChildrenFirst) {q : Query} {m : Memory}
    (h : Sound p (q, m)) : q.answer p m = none ↔
      ∃ callee arguments m', Reaches p (q, m) (.call callee arguments, m') ∧
        Endless p callee arguments m' := by
  constructor
  · intro hnone
    by_contra hanswered
    -- Without such a call there is an end to all that is asked, and so there is an answer.
    have hends : Ends p (q, m) := by
      refine ends_of_calls htree h fun b hreaches hcall => ?_
      by_contra hnotEnd
      obtain ⟨q', m'⟩ := b
      cases q' with
      | call callee arguments =>
        exact hanswered ⟨callee, arguments, m', hreaches,
          endless_of_not_callsEnd htree (hreaches.sound htree h) hnotEnd⟩
      | _ => cases hcall
    have hsome := answer_isSome_iff_ends.2 hends
    rw [hnone] at hsome
    cases hsome
  · rintro ⟨callee, arguments, m', hreaches, hendless⟩
    exact hreaches.answer_eq_none (hendless.answer_eq_none htree (hreaches.sound htree h))

end TypeProbe.Query
