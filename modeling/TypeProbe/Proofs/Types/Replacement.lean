import TypeProbe.Proofs.Types.Layers

/-!
# How types are replaced

A substitution goes down from types to their operands, so in a layered store it ends
(`Layered.substitute?_eq`). What becomes of a type is told by `TypeStore.Replaced`: there is a rule
for what has a solution, which is taken as it is, one for what stays, and one for what is made anew
of replaced operands. The operands are those of the type as it was at first, while the store has
grown by the time that they are replaced, so everything is told of two stores, an earlier and a
later one.
-/

namespace TypeProbe

namespace TypeStore

/-- A type, or one that is made of other operands in its place. -/
def rebuild (id : TypeId) (t : TypeRecord) (operands : List TypeId) (s : TypeStore) :
    TypeId × TypeStore :=
  if operands = t.shape.operands then (id, s)
  else
    match t.shape with
    | .nominal d _ _ =>
      if t.flags.has .instantiable then s.specializedClass d operands
      else s.specializedInstance d operands
    | _ => s.unionOf operands

end TypeStore

/-- Replaces types, however many levels deep. There is no result if this does not end. -/
def Solutions.substitute? (solutions : Solutions) (id : TypeId) :
    StateT TypeStore Option TypeId := do
  match solutions.lookup id with
  | some solution => return solution
  | none =>
    match (← get).get? id with
    | some t =>
      let replaced ← t.shape.operands.mapM fun part => solutions |>.substitute? part
      fun s => some (TypeStore.rebuild id t replaced s)
    | none => return id
partial_fixpoint

namespace TypeStore

/-- A type is like another one and made of the given operands, as it has been made in a store: a new
type of the same class, without a literal value, or the union of the operands. -/
def IsRebuilt (s s' : TypeStore) (r : TypeRecord) (operands : List TypeId) (t : TypeId) : Prop :=
  match r.shape with
  | .nominal d _ _ =>
    ¬t.In s ∧ s'.get? t = some ⟨if r.flags.has .instantiable then classFlags else valueFlags,
      .nominal d (some operands) none⟩
  | .union _ => s.IsUnionOf s' operands t
  | _ => False

/-- A type of a store has been replaced with one of a later store: with its solution, or, if there
is none, with itself if all operands have been replaced with themselves, and otherwise with one that
has been made of what its operands have been replaced with. -/
inductive Replaced (s s' : TypeStore) (solutions : Solutions) : TypeId → TypeId → Prop
  /-- A type that has a solution. -/
  | solved {id t : TypeId} (hsolution : solutions.lookup id = some t) :
    Replaced s s' solutions id t
  /-- A type whose operands stay. -/
  | kept {id : TypeId} {r : TypeRecord} (hnone : solutions.lookup id = none)
    (hget : s.get? id = some r)
    (hparts : ∀ part ∈ r.shape.operands, Replaced s s' solutions part part) :
    Replaced s s' solutions id id
  /-- A type of which an operand changes. -/
  | rebuilt {id t : TypeId} {r : TypeRecord} {replaced : List TypeId}
    (hnone : solutions.lookup id = none) (hget : s.get? id = some r)
    (hlength : r.shape.operands.length = replaced.length)
    (hparts : ∀ part new, (part, new) ∈ r.shape.operands.zip replaced →
      Replaced s s' solutions part new)
    (hne : replaced ≠ r.shape.operands) (hall : s'.HasAll replaced)
    (hmade : s.IsRebuilt s' r replaced t) : Replaced s s' solutions id t

variable {s s' s'' : TypeStore} {solutions : Solutions} {id t x part : TypeId}
  {ids parts : List TypeId} {r : TypeRecord}

/-- A solution is one of the values. -/
theorem mem_values_of_lookup (h : solutions.lookup id = some t) : t ∈ solutions.map (·.2) :=
  List.mem_map.2 ⟨_, mem_of_lookup h, rfl⟩

/-! ## Levels -/

/-- Replacing types one level deeper. -/
theorem substituteAt_succ (solutions : Solutions) (n : Nat) (id : TypeId) (s : TypeStore) :
    substituteAt solutions (n + 1) id s =
      match solutions.lookup id with
      | some solution => (solution, s)
      | none =>
        match s.get? id with
        | some t =>
          let replaced := t.shape.operands.mapM (substituteAt solutions n) s
          rebuild id t replaced.1 replaced.2
        | none => (id, s) := by
  unfold substituteAt
  cases solutions.lookup id with
  | some solution => rfl
  | none =>
    dsimp only
    rw [get_bind_apply]
    cases s.get? id with
    | none => rfl
    | some t =>
      obtain ⟨flags, shape⟩ := t
      -- Only types with operands have a case of their own.
      cases shape with
      | nominal d arguments literal =>
        cases arguments with
        | none => rfl
        | some arguments =>
          dsimp only [rebuild]
          rw [bind_apply]
          by_cases hsame : (arguments.mapM (substituteAt solutions n) s).1 = arguments
          · exact (congrFun (if_pos hsame) _).trans (if_pos hsame).symm
          · refine (congrFun (if_neg hsame) _).trans (Eq.trans ?_ (if_neg hsame).symm)
            split <;> rfl
      | union members =>
        dsimp only [rebuild]
        rw [bind_apply]
        by_cases hsame : (members.mapM (substituteAt solutions n) s).1 = members
        · exact (congrFun (if_pos hsame) _).trans (if_pos hsame).symm
        · exact (congrFun (if_neg hsame) _).trans (if_neg hsame).symm
      | _ => rfl

/-- Replacing each of several types ends if replacing one does. -/
theorem mapM_substitute?_eq {n : Nat}
    (h : ∀ part ∈ parts, ∀ s', s.Within s' →
      solutions.substitute? part s' = some (substituteAt solutions n part s'))
    (hw : s.Within s') :
    parts.mapM (solutions.substitute? ·) s' = some (parts.mapM (substituteAt solutions n) s') := by
  induction parts generalizing s' with
  | nil => rfl
  | cons part parts ih =>
    have hpart := h part List.mem_cons_self s' hw
    have hkept := (keeping_substituteAt solutions n part s').get?
    have hparts := ih (fun part hpart => h part (List.mem_cons_of_mem _ hpart)) (hw.trans hkept)
    rw [List.mapM_cons, List.mapM_cons, bind_apply, bind_apply]
    show (solutions.substitute? part s').bind _ = _
    rw [hpart, Option.bind_some]
    show (parts.mapM (solutions.substitute? ·) _).bind _ = _
    rw [hparts]
    rfl

namespace Layered

/-- Replacing a type ends, and one level for each type up to it is enough. -/
theorem substitute?_eq (h : s.Layered) (hid : id.In s) (hw : s.Within s') {n : Nat}
    (hn : id.index < n) : solutions.substitute? id s' = some (substituteAt solutions n id s') := by
  induction n generalizing id s' with
  | zero => exact absurd hn (Nat.not_lt_zero _)
  | succ n ih =>
    rw [Solutions.substitute?, substituteAt_succ]
    cases solutions.lookup id with
    | some solution => rfl
    | none =>
      have hget : s.get? id = some s.types[id.index] := Array.getElem?_eq_getElem hid
      have hparts : ∀ part ∈ s.types[id.index].shape.operands, ∀ s', s.Within s' →
          solutions.substitute? part s' = some (substituteAt solutions n part s') :=
        fun part hpart s' hw' =>
          ih (h.hasAll_operands hget part hpart) hw' (h.operand_lt hget hpart hn)
      show (match s'.get? id with | some t => _ | none => _ : StateT TypeStore Option TypeId) s' = _
      rw [hw id _ hget]
      show (s.types[id.index].shape.operands.mapM (solutions.substitute? ·) s').bind _ = _
      rw [mapM_substitute?_eq hparts hw]
      rfl

end Layered

/-! ## What is made -/

/-- A union is that of its types later on, too. -/
theorem IsUnionOf.mono (h : s.IsUnionOf s' ids t) (hids : s'.HasAll ids) (hw : s'.Within s'') :
    s.IsUnionOf s'' ids t := by
  unfold IsUnionOf at h ⊢
  rw [hw.flatMap_membersOf hids]
  split at h
  · exact h
  · exact h
  · exact ⟨h.1, hw _ _ h.2⟩

/-- What has been made of operands was made of them in an earlier store. -/
theorem IsUnionOf.of_within (h : s'.IsUnionOf s'' ids t) (hw : s.Within s') :
    s.IsUnionOf s'' ids t := by
  unfold IsUnionOf at h ⊢
  split at h
  · exact h
  · exact h
  · exact ⟨fun hin => h.1 (hw.in_store hin), h.2⟩

/-- A type is made of its operands later on, too. -/
theorem IsRebuilt.mono (h : s.IsRebuilt s' r ids t) (hids : s'.HasAll ids) (hw : s'.Within s'') :
    s.IsRebuilt s'' r ids t := by
  unfold IsRebuilt at h ⊢
  split at h
  · exact ⟨h.1, hw _ _ h.2⟩
  · exact h.mono hids hw
  · exact h

/-- What has been made in a later store has been made after an earlier one. -/
theorem IsRebuilt.of_within (h : s'.IsRebuilt s'' r ids t) (hw : s.Within s') :
    s.IsRebuilt s'' r ids t := by
  unfold IsRebuilt at h ⊢
  split at h
  · exact ⟨fun hin => h.1 (hw.in_store hin), h.2⟩
  · exact h.of_within hw
  · exact h

/-- A type is made of other operands. -/
theorem Layered.isRebuilt_rebuild (h : s.Layered) (id : TypeId) (hids : s.HasAll ids)
    (hlength : r.shape.operands.length = ids.length) (hne : ids ≠ r.shape.operands) :
    s.Leaves (rebuild id r ids s) ∧
      s.IsRebuilt (rebuild id r ids s).2 r ids (rebuild id r ids s).1 := by
  obtain ⟨flags, shape⟩ := r
  rw [rebuild, if_neg hne, IsRebuilt]
  -- There is only one list of no operands.
  have hnone : shape.operands ≠ [] := by
    intro hnil
    rw [hnil, List.length_nil] at hlength
    exact hne ((List.length_eq_zero_iff.1 hlength.symm).trans hnil.symm)
  cases shape with
  | nominal d arguments literal =>
    dsimp only
    split
    · exact ⟨h.leaves_add (r := ⟨classFlags, .nominal d (some ids) none⟩) hids, Nat.lt_irrefl _,
        get?_added _⟩
    · exact ⟨h.leaves_add (r := ⟨valueFlags, .nominal d (some ids) none⟩) hids, Nat.lt_irrefl _,
        get?_added _⟩
  | union members => exact ⟨h.leaves_unionOf hids, isUnionOf_unionOf hids⟩
  | _ => exact absurd rfl hnone

/-! ## What is replaced -/

/-- A type that has been replaced has been replaced in any later store. -/
theorem Replaced.mono (h : s.Replaced s' solutions id t) (hw : s'.Within s'') :
    s.Replaced s'' solutions id t := by
  induction h with
  | solved hsolution => exact .solved hsolution
  | kept hnone hget _ ih => exact .kept hnone hget ih
  | rebuilt hnone hget hlength _ hne hall hmade ih =>
    exact .rebuilt hnone hget hlength ih hne (hw.hasAll hall) (hmade.mono hall hw)

/-- Making a type of other operands keeps what is there. -/
theorem keeping_rebuild (id : TypeId) (r : TypeRecord) (ids : List TypeId) :
    Keeping (rebuild id r ids) := by
  intro s
  unfold rebuild
  split
  · exact .refl s
  · split
    · split
      · exact keeping_add _ s
      · exact keeping_add _ s
    · exact keeping_unionOf ids s

/-- A type is replaced by making it of what its operands have been replaced with. -/
theorem Layered.replaced_rebuild (h : s'.Layered) (hw : s.Within s')
    (hnone : solutions.lookup id = none) (hget : s.get? id = some r) (hall : s'.HasAll ids)
    (hparts : List.Forall₂ (s.Replaced s' solutions) r.shape.operands ids) :
    s'.Leaves (rebuild id r ids s') ∧
      s.Replaced (rebuild id r ids s').2 solutions id (rebuild id r ids s').1 := by
  have hwithin : s'.Within (rebuild id r ids s').2 := (keeping_rebuild id r ids s').get?
  by_cases hsame : ids = r.shape.operands
  · have heq : rebuild id r ids s' = (id, s') := if_pos hsame
    rw [hsame] at hparts
    rw [heq]
    exact ⟨⟨h, in_of_get? (hw id r hget), rfl⟩, .kept hnone hget (List.forall₂_same.1 hparts)⟩
  · obtain ⟨hlength, hzip⟩ := List.forall₂_iff_zip.1 hparts
    obtain ⟨hleaves, hmade⟩ := h.isRebuilt_rebuild id hall hlength hsame
    exact ⟨hleaves, .rebuilt hnone hget hlength (fun part new hmem => (hzip hmem).mono hwithin)
      hsame (hwithin.hasAll hall) (hmade.of_within hw)⟩

/-- Types are replaced one after the other. -/
theorem Layered.replaced_mapM (h : s'.Layered) (hw : s.Within s')
    {work : TypeId → StateM TypeStore TypeId} (hwork : ∀ part, Keeping (work part))
    (hpart : ∀ part ∈ parts, ∀ s', s'.Layered → s.Within s' → s'.Leaves (work part s') ∧
      s.Replaced (work part s').2 solutions part (work part s').1) :
    (parts.mapM work s').2.Layered ∧ (parts.mapM work s').2.HasAll (parts.mapM work s').1 ∧
      (parts.mapM work s').2.overran = s'.overran ∧
      List.Forall₂ (s.Replaced (parts.mapM work s').2 solutions) parts (parts.mapM work s').1 := by
  induction parts generalizing s' with
  | nil => exact ⟨h, hasAll_nil, rfl, .nil⟩
  | cons part parts ih =>
    obtain ⟨hleaves, hreplaced⟩ := hpart part List.mem_cons_self s' h hw
    have hkept : s'.Within (work part s').2 := (hwork part s').get?
    have hkept' : (work part s').2.Within (parts.mapM work (work part s').2).2 :=
      (Keeping.mapM hwork parts _).get?
    obtain ⟨hlayered, hall, hoverran, hrest⟩ := ih hleaves.layered (hw.trans hkept)
      fun part hmem => hpart part (List.mem_cons_of_mem _ hmem)
    rw [List.mapM_cons]
    exact ⟨hlayered, hasAll_cons.2 ⟨hkept'.in_store hleaves.present, hall⟩,
      hoverran.trans hleaves.overran, .cons (hreplaced.mono hkept') hrest⟩

/-- A type is replaced. -/
theorem Layered.replaced_substituteAt (h : s.Layered) (hvalues : s.HasAll (solutions.map (·.2)))
    (hid : id.In s) (h' : s'.Layered) (hw : s.Within s') {n : Nat} (hn : id.index < n) :
    s'.Leaves (substituteAt solutions n id s') ∧
      s.Replaced (substituteAt solutions n id s').2 solutions id
        (substituteAt solutions n id s').1 := by
  induction n generalizing id s' with
  | zero => exact absurd hn (Nat.not_lt_zero _)
  | succ n ih =>
    rw [substituteAt_succ]
    cases hlookup : solutions.lookup id with
    | some solution =>
      have hsolution := hvalues solution (mem_values_of_lookup hlookup)
      exact ⟨⟨h', hw.in_store hsolution, rfl⟩, .solved hlookup⟩
    | none =>
      have hget : s.get? id = some s.types[id.index] := Array.getElem?_eq_getElem hid
      obtain ⟨hlayered, hall, hoverran, hparts⟩ := h'.replaced_mapM hw
        (fun part => keeping_substituteAt solutions n part) fun part hpart s' h' hw' =>
          ih (h.hasAll_operands hget part hpart) h' hw' (h.operand_lt hget hpart hn)
      have hkept : s'.Within _ := (Keeping.mapM (keeping_substituteAt solutions n)
        s.types[id.index].shape.operands s').get?
      obtain ⟨⟨hlayered', hin, hoverran'⟩, hreplaced⟩ :=
        hlayered.replaced_rebuild (hw.trans hkept) hlookup hget hall hparts
      rw [hw id _ hget]
      exact ⟨⟨hlayered', hin, hoverran'.trans hoverran⟩, hreplaced⟩

/-- A type is replaced, at as many levels as it has. -/
theorem Layered.replaced_substitute (h : s.Layered) (hvalues : s.HasAll (solutions.map (·.2)))
    (hid : id.In s) :
    s.Leaves (substitute solutions id s) ∧
      s.Replaced (substitute solutions id s).2 solutions id (substitute solutions id s).1 :=
  h.replaced_substituteAt hvalues hid h (.refl s) (Nat.lt_succ_self id.index)

end TypeStore

end TypeProbe
