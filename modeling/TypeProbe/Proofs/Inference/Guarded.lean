import TypeProbe.Proofs.Inference.Guards
import TypeProbe.Proofs.Inference.Works

/-!
# Guarded work works

What is done under a guard takes one of its places, and with it energy. So it may ask anything where
anything may be asked once less energy is left (`Deeper`).
-/

namespace TypeProbe

namespace Evaluation

variable {p : Program} {may : Query → Memory → Prop} {m : Memory}

/-- Whenever less energy is left, anything may be asked. -/
def Deeper (p : Program) (may : Query → Memory → Prop) (m : Memory) : Prop :=
  ∀ m', m'.energy p.arena.size < m.energy p.arena.size → ∀ q : Query, q.Known p → may q m'

/-- Where less energy is left, anything may be asked. -/
theorem Deeper.free {m' : Memory} (h : Deeper p may m)
    (hlt : m'.energy p.arena.size < m.energy p.arena.size) : Free p may m' :=
  fun m'' hm'' q => h m'' (Nat.lt_of_le_of_lt (hm''.energy_le _) hlt) q.1 q.2

/-- Less energy is left further on. -/
theorem Deeper.mono {m' : Memory} (h : Deeper p may m) (hgrows : m.Grows m') : Deeper p may m' :=
  fun m'' hlt => h m'' (Nat.lt_of_lt_of_le hlt (hgrows.energy_le _))

/-- A place for a guard: putting a guard there changes nothing else. -/
structure GuardSlot.Lawful {κ : Type} (slot : GuardSlot κ) : Prop where
  /-- The handles that are kept stay the same. -/
  sound : ∀ {b m} (g : Guard κ), Memory.Sound b m → Memory.Sound b (slot.put g m)
  /-- The store stays the same. -/
  store : ∀ g m, (slot.put g m).store = m.store
  /-- A further active key takes energy. -/
  energy : ∀ m g size, (slot.guard m).depth < (slot.guard m).limit →
    g.depth = (slot.guard m).depth + 1 → g.limit = (slot.guard m).limit →
    (slot.put g m).energy size < m.energy size
  /-- The guard is the one that has been put there as long as the memory grows. -/
  guard : ∀ {m m' g}, (slot.put g m).Grows m' → slot.guard m' = g
  /-- After one with further active keys, putting back the guard that was there, the memory has
  grown. -/
  grows : ∀ {m m' g}, (slot.guard m).active ⊆ g.active → (slot.put g m).Grows m' →
    m.Grows (slot.put (slot.guard m) m')

/-- The place of the guard on nodes is one. -/
theorem lawful_nodeSlot : GuardSlot.Lawful nodeSlot where
  sound _ h := { h with }
  store _ _ := rfl
  energy m g size hlt hdepth hlimit := by
    simp only [nodeSlot, Memory.energy, Memory.room] at *
    omega
  guard h := h.nodeGuard
  grows hsub h := ⟨h.store, h.classes, h.functions, rfl, h.declarationGuard, h.returnGuard,
    fun n hn => h.active n (hsub hn)⟩

/-- The place of the guard on declarations is one. -/
theorem lawful_declarationSlot : GuardSlot.Lawful declarationSlot where
  sound _ h := { h with }
  store _ _ := rfl
  energy m g size hlt hdepth hlimit := by
    simp only [declarationSlot, Memory.energy, Memory.room] at *
    omega
  guard h := h.declarationGuard
  grows _ h := ⟨h.store, h.classes, h.functions, h.nodeGuard, rfl, h.returnGuard, h.active⟩

/-- The place of the guard on returned types is one. -/
theorem lawful_returnSlot : GuardSlot.Lawful returnSlot where
  sound _ h := { h with }
  store _ _ := rfl
  energy m g size hlt hdepth hlimit := by
    simp only [returnSlot, Memory.energy, Memory.room] at *
    omega
  guard h := h.returnGuard
  grows _ h := ⟨h.store, h.classes, h.functions, h.nodeGuard, h.declarationGuard, rfl, h.active⟩

/-- Guarded work works if what is guarded does. It may ask anything, as it takes a place of the
guard. -/
theorem works_guarded {κ α : Type} [DecidableEq κ] {slot : GuardSlot κ} {key : κ} {provisional : α}
    {work : Evaluation α} {keep : α → Memory → Memory} {post : α → TypeStore → Prop}
    (hslot : slot.Lawful) (hdeeper : Deeper p may m)
    (hprovisional : m.Sound p.builtins → post provisional m.store)
    (hwork : ∀ m', m'.store = m.store → Free p may m' → Works p may m' work post)
    (hkeep : ∀ a m', Memory.Sound p.builtins m' → key ∉ (slot.guard m').active → post a m'.store →
      (keep a m').Sound p.builtins ∧ m'.Grows (keep a m') ∧ post a (keep a m').store) :
    Works p may m (guarded slot key provisional work keep) post := by
  refine .get ?_
  rcases (slot.guard m).enter_cases key with ⟨-, henter⟩ | ⟨-, -, henter⟩ | ⟨hroom, hfree, henter⟩
  · rw [henter]
    exact .ret hprovisional
  · rw [henter]
    exact .ret hprovisional
  rw [henter]
  intro hm
  show ((work (slot.put _ m)).bind fun r =>
    .done (r.1, keep r.1 (slot.put ((slot.guard r.2).leave key) r.2))).Meets _ _ _
  -- Inside, the guard is one deeper, which takes energy.
  have hlt := hslot.energy m ((slot.guard m).further key) p.arena.size hroom rfl rfl
  refine (hwork _ (hslot.store _ m) (hdeeper.free hlt) (hslot.sound _ hm)).bind fun r hr => ?_
  obtain ⟨hsound, hgrows, hpost⟩ := hr
  -- What is left has the guard as it was before.
  have hback := hslot.grows (List.subset_cons_self key _) hgrows
  rw [hslot.guard hgrows, Guard.leave_further]
  have hpost' : post r.1 (slot.put (slot.guard m) r.2).store := by
    rw [hslot.store]
    exact hpost
  have hfree' : key ∉ (slot.guard (slot.put (slot.guard m) r.2)).active := by
    rw [hslot.guard (.refl _)]
    exact hfree
  obtain ⟨hsound', hgrows', hkept⟩ := hkeep r.1 _ (hslot.sound _ hsound) hfree' hpost'
  exact ⟨hsound', hback.trans hgrows', hkept⟩

end Evaluation

end TypeProbe
