import TypeProbe.Proofs.Types.Replacement

/-!
# Substitution is simultaneous

In a type in which no key occurs nothing is replaced, and nothing is made (`substituteAt_eq_self`).
In any other one all keys that occur are replaced at once: the type variables of the result are
those of the type without a solution, and those of the solutions of what occurs in it
(`Layered.occurs_substitute`), so solutions are not replaced again. Calls meet the assumptions: what
they replace are type variables (`Regular.replaced_solve`).
-/

namespace TypeProbe.TypeStore

/-- A type is another one, or occurs in an operand of that. -/
inductive Occurs (s : TypeStore) (x : TypeId) : TypeId → Prop
  /-- A type occurs in itself. -/
  | self : Occurs s x x
  /-- What occurs in an operand of a type occurs in the type. -/
  | operand {id part : TypeId} {shape : TypeShape} (hshape : s.shape? id = some shape)
    (hpart : part ∈ shape.operands) (h : Occurs s x part) : Occurs s x id

/-- A type is left in another one when types have been replaced: it occurs there and has no
solution, or it occurs in the solution of a type that occurs there. -/
def Remains (s : TypeStore) (solutions : Solutions) (x id : TypeId) : Prop :=
  (solutions.lookup x = none ∧ s.Occurs x id) ∨
    ∃ key value, solutions.lookup key = some value ∧ s.Occurs key id ∧ s.Occurs x value

variable {s s' : TypeStore} {solutions : Solutions} {id t x : TypeId} {ids : List TypeId}
  {r : TypeRecord}

/-- A type that has a solution is a key. -/
theorem mem_keys_of_lookup (h : solutions.lookup id = some t) : id ∈ solutions.map (·.1) :=
  List.mem_map.2 ⟨_, mem_of_lookup h, rfl⟩

/-- A type in which nothing has a solution is left as it is. -/
theorem substituteAt_eq_self (h : ∀ key, s.Occurs key id → solutions.lookup key = none) (n : Nat) :
    substituteAt solutions n id s = (id, s) := by
  induction n generalizing id with
  | zero => rfl
  | succ n ih =>
    rw [substituteAt_succ, h id .self]
    dsimp only
    split
    · rename_i r hget
      have hparts : ∀ part ∈ r.shape.operands, substituteAt solutions n part s = (part, s) :=
        fun part hpart => ih fun key hkey => h key (.operand (shape?_of_get? hget) hpart hkey)
      rw [mapM_eq_of_forall₂ (List.forall₂_same.2 hparts)]
      exact if_pos rfl
    · rfl

/-! ## What occurs in the result -/

/-- A type occurs in another one if it is that type, or occurs in an operand. -/
theorem occurs_iff {shape : TypeShape} (hshape : s.shape? id = some shape) :
    s.Occurs x id ↔ x = id ∨ ∃ part ∈ shape.operands, s.Occurs x part := by
  constructor
  · intro h
    cases h with
    | self => exact .inl rfl
    | operand hshape' hpart h =>
      cases hshape.symm.trans hshape'
      exact .inr ⟨_, hpart, h⟩
  · rintro (rfl | ⟨part, hpart, h⟩)
    · exact .self
    · exact .operand hshape hpart h

/-- In a type that was there occurs what occurred in it. -/
theorem Layered.occurs_within (h : s.Layered) (hw : s.Within s') (hid : id.In s) :
    s'.Occurs x id ↔ s.Occurs x id := by
  constructor
  · intro hoccurs
    induction hoccurs with
    | self => exact .self
    | operand hshape hpart _ ih =>
      have hold := (hw.shape?_eq hid).symm.trans hshape
      exact .operand hold hpart (ih (Nat.lt_trans (h.operands _ _ hold _ hpart) hid))
  · intro hoccurs
    clear hid
    induction hoccurs with
    | self => exact .self
    | operand hshape hpart _ ih => exact .operand (hw.shape? hshape) hpart ih

/-- What is no union occurs in a type if it occurs in a member of it. -/
theorem occurs_iff_membersOf (hx : ∀ members, s.shape? x ≠ some (.union members)) :
    s.Occurs x id ↔ ∃ part ∈ s.membersOf id, s.Occurs x part := by
  by_cases hunion : ∃ members, s.shape? id = some (.union members)
  · obtain ⟨members, hunion⟩ := hunion
    have hne : x ≠ id := by
      rintro rfl
      exact hx members hunion
    rw [membersOf_union hunion, occurs_iff hunion]
    exact or_iff_right hne
  · rw [membersOf_of_ne fun members heq => hunion ⟨members, heq⟩]
    simp only [List.mem_singleton, exists_eq_left]

/-- A type variable. -/
def IsVariable (s : TypeStore) (x : TypeId) : Prop :=
  ∃ d scope scopedName, s.shape? x = some (.typeVar d scope scopedName)

/-- A type variable is no union. -/
theorem IsVariable.ne_union (h : s.IsVariable x) (members : List TypeId) :
    s.shape? x ≠ some (.union members) := by
  obtain ⟨d, scope, scopedName, hx⟩ := h
  rw [hx]
  exact nofun

/-- A type variable stays one. -/
theorem IsVariable.mono (h : s.IsVariable x) (hw : s.Within s') : s'.IsVariable x := by
  obtain ⟨d, scope, scopedName, hx⟩ := h
  exact ⟨d, scope, scopedName, hw.shape? hx⟩

/-- A type variable is there. -/
theorem IsVariable.in_store (h : s.IsVariable x) : x.In s := by
  obtain ⟨d, scope, scopedName, hx⟩ := h
  exact in_of_shape? hx

/-- A type variable occurs in a union if it occurs in one of the types. -/
theorem IsUnionOf.occurs_iff (h : s.IsUnionOf s' ids t) (hs : s.Layered) (hw : s.Within s')
    (hx : s.IsVariable x) : s'.Occurs x t ↔ ∃ part ∈ ids, s'.Occurs x part := by
  have hmembers : (∃ part ∈ ids, s'.Occurs x part) ↔
      ∃ member ∈ (ids.flatMap s'.membersOf).eraseDups, s'.Occurs x member := by
    simp only [List.mem_eraseDups, List.mem_flatMap]
    constructor
    · rintro ⟨part, hpart, hoccurs⟩
      obtain ⟨member, hmember, hoccurs⟩ := (occurs_iff_membersOf (hx.mono hw).ne_union).1 hoccurs
      exact ⟨member, ⟨part, hpart, hmember⟩, hoccurs⟩
    · rintro ⟨member, ⟨part, hpart, hmember⟩, hoccurs⟩
      exact ⟨part, hpart, (occurs_iff_membersOf (hx.mono hw).ne_union).2 ⟨member, hmember, hoccurs⟩⟩
  rw [hmembers]
  unfold IsUnionOf at h
  split at h
  · rename_i hnil
    obtain ⟨d, scope, scopedName, hvar⟩ := hx
    rw [hnil, h, TypeStore.occurs_iff (hw.shape? hs.never)]
    refine ⟨?_, nofun⟩
    rintro (rfl | ⟨part, hpart, -⟩)
    · cases hs.never.symm.trans hvar
    · cases hpart
  · rename_i only honly
    rw [honly, h]
    simp only [List.mem_singleton, exists_eq_left]
  · have hne : x ≠ t := by
      rintro rfl
      exact h.1 hx.in_store
    rw [TypeStore.occurs_iff (shape?_of_get? h.2)]
    exact or_iff_right hne

/-- A type variable occurs in a type that is made anew if it occurs in an operand. -/
theorem IsRebuilt.occurs_iff (h : s.IsRebuilt s' r ids t) (hs : s.Layered) (hw : s.Within s')
    (hx : s.IsVariable x) : s'.Occurs x t ↔ ∃ part ∈ ids, s'.Occurs x part := by
  unfold IsRebuilt at h
  split at h
  · have hne : x ≠ t := by
      rintro rfl
      exact h.1 hx.in_store
    rw [TypeStore.occurs_iff (shape?_of_get? h.2)]
    exact or_iff_right hne
  · exact h.occurs_iff hs hw hx
  · exact h.elim

/-- What has no solution of its own is left in a type if it is that, or is left in an operand. -/
theorem remains_iff (hnone : solutions.lookup id = none) (hget : s.get? id = some r) :
    s.Remains solutions x id ↔ x = id ∨ ∃ part ∈ r.shape.operands, s.Remains solutions x part := by
  have hshape := shape?_of_get? hget
  constructor
  · rintro (⟨hx, hoccurs⟩ | ⟨key, value, hvalue, hoccurs, hx⟩)
    · rcases (occurs_iff hshape).1 hoccurs with rfl | ⟨part, hpart, hoccurs⟩
      · exact .inl rfl
      · exact .inr ⟨part, hpart, .inl ⟨hx, hoccurs⟩⟩
    · rcases (occurs_iff hshape).1 hoccurs with rfl | ⟨part, hpart, hoccurs⟩
      · cases hnone.symm.trans hvalue
      · exact .inr ⟨part, hpart, .inr ⟨key, value, hvalue, hoccurs, hx⟩⟩
  · rintro (rfl | ⟨part, hpart, ⟨hx, hoccurs⟩ | ⟨key, value, hvalue, hoccurs, hx⟩⟩)
    · exact .inl ⟨hnone, .self⟩
    · exact .inl ⟨hx, .operand hshape hpart hoccurs⟩
    · exact .inr ⟨key, value, hvalue, .operand hshape hpart hoccurs, hx⟩

/-- The type variables that occur in a type after it has been replaced are those that are left: the
ones without a solution, and the ones in solutions. -/
theorem Replaced.occurs_iff (h : s.Replaced s' solutions id t) (hs : s.Layered) (hw : s.Within s')
    (hkeys : ∀ key value, solutions.lookup key = some value → s.IsVariable key ∧ value.In s)
    (hx : s.IsVariable x) : s'.Occurs x t ↔ s.Remains solutions x id := by
  induction h with
  | @solved id t hsolution =>
    obtain ⟨⟨d, scope, scopedName, hvar⟩, ht⟩ := hkeys id t hsolution
    have hself {key : TypeId} (hkey : s.Occurs key id) : key = id := by
      rcases (TypeStore.occurs_iff hvar).1 hkey with heq | ⟨part, hpart, -⟩
      · exact heq
      · cases hpart
    rw [hs.occurs_within hw ht]
    constructor
    · exact fun hoccurs => .inr ⟨id, t, hsolution, .self, hoccurs⟩
    · rintro (⟨hnone, hoccurs⟩ | ⟨key, value, hvalue, hoccurs, hx⟩)
      · rw [hself hoccurs, hsolution] at hnone
        cases hnone
      · cases hself hoccurs
        cases hvalue.symm.trans hsolution
        exact hx
  | @kept id r hnone hget _ ih =>
    rw [remains_iff hnone hget, TypeStore.occurs_iff (shape?_of_get? (hw id r hget))]
    exact or_congr_right (exists_congr fun part => and_congr_right fun hpart => ih part hpart)
  | @rebuilt id t r replaced hnone hget hlength _ hne _ hmade ih =>
    have hparts : List.Forall₂ (fun part new => s'.Occurs x new ↔ s.Remains solutions x part)
        r.shape.operands replaced :=
      List.forall₂_iff_zip.2 ⟨hlength, fun hmem => ih _ _ hmem⟩
    obtain ⟨hsome, horigin⟩ := exists_mem_of_forall₂ hparts
    -- A type that is made anew has operands, and a type variable has none.
    have hne : x ≠ id := by
      rintro rfl
      obtain ⟨d, scope, scopedName, hvar⟩ := hx
      have hshape := Option.some.inj ((shape?_of_get? hget).symm.trans hvar)
      rw [IsRebuilt, hshape] at hmade
      exact hmade
    rw [hmade.occurs_iff hs hw hx, remains_iff hnone hget, or_iff_right hne]
    constructor
    · rintro ⟨new, hnew, hoccurs⟩
      obtain ⟨part, hpart, hiff⟩ := horigin new hnew
      exact ⟨part, hpart, hiff.1 hoccurs⟩
    · rintro ⟨part, hpart, hremains⟩
      obtain ⟨new, hnew, hiff⟩ := hsome part hpart
      exact ⟨new, hnew, hiff.2 hremains⟩

/-- The type variables of the result are those that are left. -/
theorem Layered.occurs_substitute (h : s.Layered)
    (hkeys : ∀ key ∈ solutions.map (·.1), s.IsVariable key)
    (hvalues : s.HasAll (solutions.map (·.2))) (hid : id.In s) (hx : s.IsVariable x) :
    (substitute solutions id s).2.Occurs x (substitute solutions id s).1 ↔
      s.Remains solutions x id := by
  have hwithin : s.Within (substitute solutions id s).2 := (keeping_substituteAt _ _ id s).get?
  refine (h.replaced_substitute hvalues hid).2.occurs_iff h hwithin (fun key value hvalue => ?_) hx
  exact ⟨hkeys key (mem_keys_of_lookup hvalue), hvalues value (mem_values_of_lookup hvalue)⟩

/-- In a layered store, replacing type variables ends. If no key occurs in a type, the same handle
and the same store are given back. Otherwise the result is the type with every key that occurs
replaced at once, and the type variables that occur in it are those of the type that are no keys and
those of the solutions of keys that occur: a key occurs in it only if it occurs in a solution. -/
theorem Layered.substitute_solves (h : s.Layered)
    (hkeys : ∀ key ∈ solutions.map (·.1), s.IsVariable key)
    (hvalues : s.HasAll (solutions.map (·.2))) (hid : id.In s) :
    let result := substitute solutions id s
    solutions.substitute? id s = some result ∧
    ((∀ key ∈ solutions.map (·.1), ¬s.Occurs key id) → result = (id, s)) ∧
    s.Within result.2 ∧ s.Leaves result ∧ s.Replaced result.2 solutions id result.1 ∧
    (∀ x, s.IsVariable x → (result.2.Occurs x result.1 ↔ s.Remains solutions x id)) ∧
    ∀ key ∈ solutions.map (·.1), result.2.Occurs key result.1 →
      ∃ value ∈ solutions.map (·.2), s.Occurs key value := by
  intro result
  obtain ⟨hleaves, hreplaced⟩ := h.replaced_substitute hvalues hid
  refine ⟨h.substitute?_eq hid (.refl s) (Nat.lt_succ_self id.index), fun hfree => ?_,
    (keeping_substituteAt _ _ id s).get?, hleaves, hreplaced,
    fun x hx => h.occurs_substitute hkeys hvalues hid hx, fun key hkey hin => ?_⟩
  · refine substituteAt_eq_self (fun key hkey => ?_) _
    cases hvalue : solutions.lookup key with
    | none => rfl
    | some value => exact absurd hkey (hfree key (mem_keys_of_lookup hvalue))
  · have hremains := (h.occurs_substitute hkeys hvalues hid (hkeys key hkey)).1 hin
    rcases hremains with ⟨hnone, -⟩ | ⟨other, value, hvalue, -, hoccurs⟩
    · obtain ⟨⟨_, value⟩, hmem, rfl⟩ := List.mem_map.1 hkey
      have hne := List.lookup_eq_none_iff.1 hnone _ hmem
      rw [bne_self_eq_false] at hne
      cases hne
    · exact ⟨value, mem_values_of_lookup hvalue, hoccurs⟩

/-- A type variable is solved among the members of a union and in a type argument of one of them,
and the plain type that solves it stays as it is. -/
theorem Layered.substitute_solves_union :
    let s := [StoreCall.addClass (.named "list" "builtins" ⟨0⟩),
      .addClass (.named "int" "builtins" ⟨0⟩), .addTypeVar ⟨"T", [], none, .invariant⟩,
      .add ⟨classFlags, .typeVar ⟨0⟩ none none⟩, .instanceOf ⟨1⟩,
      .specializedInstance ⟨0⟩ [⟨6⟩], .unionOf [⟨8⟩, ⟨6⟩, .noneValue]].foldl StoreCall.run .initial
    let result := substitute [(⟨6⟩, ⟨7⟩)] ⟨9⟩ s
    s.Layered ∧ s.IsVariable ⟨6⟩ ∧ s.HasAll [⟨7⟩] ∧ TypeId.In ⟨9⟩ s ∧
      s.shape? ⟨9⟩ = some (.union [⟨8⟩, ⟨6⟩, .noneValue]) ∧
      Solutions.substitute? [(⟨6⟩, ⟨7⟩)] ⟨9⟩ s = some result ∧
      result.2.shape? result.1 = some (.union [⟨10⟩, ⟨7⟩, .noneValue]) ∧
      result.2.shape? ⟨10⟩ = some (.nominal ⟨0⟩ (some [⟨7⟩]) none) ∧
      ¬result.2.Occurs ⟨6⟩ result.1 ∧ substitute [(⟨6⟩, ⟨7⟩)] ⟨7⟩ s = (⟨7⟩, s) := by
  intro s result
  have hclasses : BuiltBy StoreCall.IsSupplied _ :=
    (BuiltBy.initial.call (.addClass (.named "list" "builtins" ⟨0⟩)) trivial).call
      (.addClass (.named "int" "builtins" ⟨0⟩)) trivial
  have hvariable := (hclasses.call (.addTypeVar ⟨"T", [], none, .invariant⟩) trivial).call
    (.add ⟨classFlags, .typeVar ⟨0⟩ none none⟩) hasAll_nil
  have hlist := (hvariable.call (.instanceOf ⟨1⟩) trivial).call
    (.specializedInstance ⟨0⟩ [⟨6⟩]) (hasAll_of_all rfl)
  have hs : s.Layered :=
    (hlist.call (.unionOf [⟨8⟩, ⟨6⟩, .noneValue]) (hasAll_of_all rfl)).layered
  have hkey : s.IsVariable ⟨6⟩ := ⟨⟨0⟩, none, none, rfl⟩
  have hkeys : ∀ key ∈ [(⟨6⟩, ⟨7⟩)].map (fun e : TypeId × TypeId => e.1), s.IsVariable key :=
    fun key hmem => List.mem_singleton.1 hmem ▸ hkey
  have hvalues : s.HasAll [⟨7⟩] := hasAll_of_all rfl
  have hid : TypeId.In ⟨9⟩ s := show 9 < s.types.size by decide
  have hvalue : TypeId.In ⟨7⟩ s := hvalues _ List.mem_cons_self
  have hfree : ¬s.Occurs ⟨6⟩ ⟨7⟩ := by
    have hshape : s.shape? ⟨7⟩ = some (.nominal ⟨1⟩ none none) := rfl
    rw [occurs_iff hshape]
    rintro (heq | ⟨part, hpart, -⟩)
    · cases heq
    · cases hpart
  obtain ⟨hends, -, -, -, -, -, hkept⟩ :=
    Layered.substitute_solves hs hkeys hvalues hid
  obtain ⟨-, hsame, -⟩ :=
    Layered.substitute_solves hs hkeys hvalues hvalue
  refine ⟨hs, hkey, hvalues, hid, rfl, hends, by decide, by decide, fun hoccurs => ?_,
    hsame fun key hmem => List.mem_singleton.1 hmem ▸ hfree⟩
  obtain ⟨value, hmem, hin⟩ := hkept ⟨6⟩ List.mem_cons_self hoccurs
  cases List.mem_singleton.1 hmem
  exact hfree hin

/-! ## What calls return -/

/-- A function on stores gives what to replace type variables with, and nothing for other types. -/
def SolvesVariables (s : TypeStore) (work : StateM TypeStore Solutions) : Prop :=
  ∀ key ∈ (work s).1.map (·.1), (work s).2.IsVariable key

/-- The store may be looked at. -/
theorem SolvesVariables.get {next : TypeStore → StateM TypeStore Solutions}
    (h : s.SolvesVariables (next s)) : s.SolvesVariables (MonadState.get >>= next) := h

/-- A call replaces nothing but type variables. -/
theorem solvesVariables_solve (parameters : List Parameter) (arguments : List TypeId)
    (hkeys : ∀ key ∈ solutions.map (·.1), s.IsVariable key) :
    s.SolvesVariables (Calls.solve parameters arguments solutions) := by
  induction parameters generalizing arguments solutions s with
  | nil => exact hkeys
  | cons parameter parameters ih =>
    cases arguments with
    | nil => exact hkeys
    | cons argument arguments =>
      unfold Calls.solve
      split
      · exact hkeys
      · refine .get ?_
        split
        · rename_i d scope scopedName hvar _
          have hwithin : s.Within (widen argument s).2 := (keeping_widenAt _ argument s).get?
          refine ih arguments fun key hkey => ?_
          rw [List.map_append, List.mem_append] at hkey
          rcases hkey with hold | hnew
          · exact (hkeys key hold).mono hwithin
          · exact List.mem_singleton.1 hnew ▸ IsVariable.mono ⟨_, _, _, hvar⟩ hwithin
        · exact ih arguments hkeys

/-- In a regular store, a call replaces the type variables of parameters with what they are solved
by, all at once, in the type that a function is declared to return. -/
theorem Regular.replaced_solve (h : s.Regular) (parameters : List Parameter)
    {arguments : List TypeId} (harguments : s.HasAll arguments) (hid : id.In s) :
    let solved := Calls.solve parameters arguments [] s
    let result := substitute solved.1 id solved.2
    solved.2.Replaced result.2 solved.1 id result.1 ∧ ∀ x, solved.2.IsVariable x →
      (result.2.Occurs x result.1 ↔ solved.2.Remains solved.1 x id) := by
  intro solved result
  have hwithin : s.Within solved.2 := (keeping_solve parameters arguments [] s).get?
  have hnone : s.HasAll (([] : Solutions).map (·.2)) := hasAll_nil
  obtain ⟨hsound, hgrows, hvalues⟩ := Calls.works_solve parameters harguments hnone h.sound
  have hlayered : solved.2.Layered := hsound.layered (hwithin.shape? h.foreknows.shape?_never)
  have hkeys : ∀ key ∈ solved.1.map (·.1), solved.2.IsVariable key :=
    solvesVariables_solve parameters arguments nofun
  exact ⟨(hlayered.replaced_substitute hvalues (hid.mono hgrows)).2, fun x hx =>
    hlayered.occurs_substitute hkeys hvalues (hid.mono hgrows) hx⟩

end TypeProbe.TypeStore
