import TypeProbe.Proofs.Inference.Attaining
import TypeProbe.Proofs.Inference.Entries

/-!
# The name of a marker

An expression that is the name `overload`, where that stands for what is imported
(`Program.NamesOverload`), has the type that marks overloads, unless a guard stands in the way of
its evaluation or of that of the import (`Memory.Blocks`). Then it is taken to have the provisional
type, and if only the import was cut off that is kept of it. Its evaluation leaves the store and
what is kept of definitions (`Evaluation.meets_overloadName`).
-/

namespace TypeProbe

open Builtins

/-- The module and the member of it that an import names. -/
def Program.importedMember? (p : Program) (n : NodeId) : Option (String × String) :=
  match p.arena.form? n, (p.arena.parent? n).bind p.arena.form? with
  | some (.importFromAs name _), some (.importFrom module _ _ _ _) =>
    some (p.importedModule module, (p.arena.nameOf? name).getD "")
  | _, _ => none

/-- An expression is the name `overload`, which stands for what a declaration imports from the
module that has it, and for nothing else. -/
structure Program.NamesOverload (p : Program) (e : NodeId) (d : Declaration) : Prop where
  /-- It is the name. -/
  form : ∃ token, p.arena.form? e = some (.name token "overload")
  /-- It is no part of a construct around it. -/
  isTitle : p.isTitle e = false
  /-- It declares nothing. -/
  undeclared : p.bindings.declaration? e = none
  /-- It stands for the declaration alone. -/
  found : ∃ scope,
    p.bindings.lookup? (p.bindings.scopeContaining p.arena e) "overload" = some (scope, [d])
  /-- The declaration is an import. -/
  kind : d.kind = .imported
  /-- It imports the name from its module. -/
  imports : p.importedMember? d.node = some ("typing", "overload")

/-- What an expression that names `overload` is taken to be: what marks overloads, or the
provisional type if its evaluation has been cut off. -/
def Program.Reads (p : Program) (cut : NodeId → Prop) (e : NodeId) (t : TypeId) : Prop :=
  p.builtins.marker? t = some .overload ∨ t = .incomplete ∧ cut e

/-- A guard stands in the way of the evaluation of a name, or of that of its declaration. -/
def Memory.Blocks (m : Memory) (e : NodeId) (d : Declaration) : Prop :=
  m.nodeTypes.lookup e = none ∧ ((m.nodeGuard.enter e).1 ≠ .entered ∨
    m.declarationTypes.lookup d.node = none ∧ (m.declarationGuard.enter d.node).1 ≠ .entered)

/-- A memory in which what is known beforehand is there, and names of `overload` are taken for what
marks overloads, unless their evaluation has been cut off. -/
structure Memory.Reads (p : Program) (cut : NodeId → Prop) (m : Memory) : Prop where
  /-- What is known beforehand is there. -/
  foreknows : foreknown.2.Stays m.store
  /-- The types that are kept of imports. -/
  imports : ∀ e d, p.NamesOverload e d → ∀ t, m.declarationTypes.lookup d.node = some t →
    p.builtins.marker? t = some .overload
  /-- The types that are kept of names. -/
  names : ∀ e d, p.NamesOverload e d → ∀ t, m.nodeTypes.lookup e = some t → p.Reads cut e t

/-! ## What is known beforehand -/

/-- The module has a member of the name, which marks overloads. -/
theorem Builtins.overload_foreknown : ((foreknown.1.module? "typing").bind fun module =>
    memberOf? foreknown.2 module "overload").bind foreknown.1.marker? = some .overload := by
  decide +kernel

/-- Markers are functions. -/
theorem Builtins.markers_foreknown : foreknown.1.markers.all (fun entry =>
    (foreknown.2.mark? entry.2).isSome) = true := by
  decide +kernel

namespace Memory.Reads

variable {p : Program} {cut : NodeId → Prop} {m m' : Memory}

/-- Names are read as before if nothing else is kept of them. -/
theorem mono (h : m.Reads p cut) (hstore : m.store.Stays m'.store)
    (hdeclarations : m'.declarationTypes = m.declarationTypes)
    (hnodes : m'.nodeTypes = m.nodeTypes) : m'.Reads p cut where
  foreknows := h.foreknows.trans hstore
  imports e d hd t ht := h.imports e d hd t (hdeclarations ▸ ht)
  names e d hd t ht := h.names e d hd t (hnodes ▸ ht)

/-- The type of a node may be kept if the node is no such name, or is read so. -/
theorem keepNode (h : m.Reads p cut) {n : NodeId} {type : TypeId}
    (hn : ∀ d, p.NamesOverload n d → p.Reads cut n type) :
    Memory.Reads p cut { m with nodeTypes := (n, type) :: m.nodeTypes } := by
  refine ⟨h.foreknows, h.imports, fun e d hd t ht => ?_⟩
  by_cases heq : e = n
  · subst heq
    cases List.lookup_cons_self.symm.trans ht
    exact hn d hd
  · exact h.names e d hd t ((TypeStore.lookup_cons_of_ne heq _ _).symm.trans ht)

/-- The type of a declaration may be kept if that is no such import, or is what marks overloads. -/
theorem keepDeclaration (h : m.Reads p cut) {n : NodeId} {type : TypeId}
    (hn : ∀ e d, p.NamesOverload e d → d.node = n → p.builtins.marker? type = some .overload) :
    Memory.Reads p cut { m with declarationTypes := (n, type) :: m.declarationTypes } := by
  refine ⟨h.foreknows, fun e d hd t ht => ?_, h.names⟩
  by_cases heq : d.node = n
  · subst heq
    cases List.lookup_cons_self.symm.trans ht
    exact hn e d hd rfl
  · exact h.imports e d hd t ((TypeStore.lookup_cons_of_ne heq _ _).symm.trans ht)

end Memory.Reads

namespace Evaluation

open Names Expressions

variable {p : Program} {cut : NodeId → Prop} {m : Memory} {e : NodeId} {d : Declaration}

/-- Guarded work is done if it may begin; else the provisional answer is given. -/
theorem guarded_eq {κ α : Type} [DecidableEq κ] (slot : GuardSlot κ) (key : κ) (provisional : α)
    (work : Evaluation α) (keep : α → Memory → Memory) (m : Memory) :
    guarded slot key provisional work keep m =
      if ((slot.guard m).enter key).1 = .entered then
        (work (slot.put ((slot.guard m).enter key).2 m)).bind fun r =>
          .done (r.1, keep r.1 (slot.put ((slot.guard r.2).leave key) r.2))
      else .done (provisional, m) := by
  unfold guarded
  rw [Query.get_bind]
  rcases (slot.guard m).enter key with ⟨entry, g⟩
  cases entry with
  | entered => rfl
  | cycle => rfl
  | depthExceeded => rfl

/-- The type that an import of `overload` gives. -/
theorem exists_imported (hbuiltins : p.builtins = foreknown.1) (hm : m.Reads p cut)
    (h : p.NamesOverload e d) : ∃ t, p.builtins.marker? t = some .overload ∧
      imported p d.node m = .done (t, m) := by
  have hmember := h.imports
  unfold Program.importedMember? at hmember
  unfold imported
  split at hmember
  · rename_i name _ module _ _ _ _ hform hparent
    obtain ⟨hmodule, hname⟩ := Prod.mk.inj (Option.some.inj hmember)
    obtain ⟨t, ht, hmarker⟩ := Option.bind_eq_some_iff.1 overload_foreknown
    obtain ⟨type, htype, hfound⟩ := Option.bind_eq_some_iff.1 ht
    refine ⟨t, hbuiltins ▸ hmarker, ?_⟩
    have hstays : memberOf? m.store type "overload" = some t := by
      unfold memberOf? at hfound ⊢
      split at hfound
      · rename_i hshape
        rw [hm.foreknows.shape? hshape]
        exact hfound
      · cases hfound
    rw [hform]
    dsimp only
    rw [hparent]
    dsimp only
    rw [hmodule, hname, hbuiltins, htype, Query.store_bind, Option.bind_some, hstays]
    rfl
  · cases hmember

/-- The import of `overload` is evaluated without questions: it gives what marks overloads, unless a
guard stands in the way. -/
theorem exists_declaration (hbuiltins : p.builtins = foreknown.1) (hm : m.Reads p cut)
    (h : p.NamesOverload e d) : ∃ t m', Names.declaration p d m = .done (t, m') ∧
      m'.store = m.store ∧ m'.functions = m.functions ∧ m'.Reads p cut ∧
      (p.builtins.marker? t = some .overload ∨ t = .incomplete ∧
        m.declarationTypes.lookup d.node = none ∧
        (m.declarationGuard.enter d.node).1 ≠ .entered) := by
  unfold Names.declaration
  rw [h.kind]
  dsimp only
  rw [Query.get_bind]
  cases hkept : m.declarationTypes.lookup d.node with
  | some t => exact ⟨t, m, rfl, rfl, rfl, hm, .inl (hm.imports e d h t hkept)⟩
  | none =>
    show ∃ t m', guarded declarationSlot d.node .incomplete (imported p d.node)
      (fun type m => { m with declarationTypes := (d.node, type) :: m.declarationTypes }) m =
        .done (t, m') ∧ _
    rw [guarded_eq]
    -- What its module has of the name does not depend on what is being worked out.
    by_cases hentered : ((declarationSlot.guard m).enter d.node).1 = .entered
    · have hput : ∀ g {m1 : Memory}, m1.Reads p cut → (declarationSlot.put g m1).Reads p cut :=
        fun _ _ hm1 => hm1.mono (.refl _) rfl rfl
      obtain ⟨t, ht, himported⟩ := exists_imported hbuiltins (hput _ hm) h
      rw [if_pos hentered]
      show ∃ t m', (imported p d.node (declarationSlot.put _ m)).bind _ = _ ∧ _
      rw [himported]
      exact ⟨t, _, rfl, rfl, rfl, (hput _ (hput _ hm)).keepDeclaration fun _ _ _ _ => ht, .inl ht⟩
    · rw [if_neg hentered]
      exact ⟨_, m, rfl, rfl, rfl, hm, .inr ⟨rfl, rfl, hentered⟩⟩

/-- A name of `overload` is evaluated by asking for the declaration it stands for. -/
theorem compute_overloadName (h : p.NamesOverload e d) :
    compute p e = some <$> ask (.declaration d) := by
  obtain ⟨token, hform⟩ := h.form
  obtain ⟨scope, hfound⟩ := h.found
  have htogether : together [d] = ask (.declaration d) := by
    unfold together
    have hlast : [d].getLast?.filter replacesOthers = some d := by
      simp [replacesOthers, h.kind]
    rw [hlast]
  have hlatest : ∀ ds ⊆ [d], p.latest? ds = none ∨ p.latest? ds = some d := by
    intro ds hds
    cases hd : p.latest? ds with
    | none => exact .inl rfl
    | some d' => exact .inr (congrArg some (List.mem_singleton.1 (hds (mem_of_latest? hd))))
  have hlookup : lookup p e "overload" = ask (.declaration d) := by
    unfold lookup
    dsimp only
    rw [hfound]
    dsimp only
    unfold ofDeclarations
    extract_lets preceding
    have hsub : preceding ⊆ [d] := by
      dsimp only [preceding]
      split
      · exact List.filter_subset_self _
      · exact List.nil_subset _
    rcases hlatest preceding hsub with hnone | hsome
    · rw [hnone]
      exact htogether
    · rw [hsome]
  have hdeclared : declared p e = pure none := by
    unfold declared
    rw [h.undeclared]
  unfold compute
  rw [hform]
  dsimp only
  rw [name_of_not_isTitle h.isTitle, plainName, hdeclared, pure_bind]
  dsimp only
  rw [hlookup, map_eq_pure_bind]

/-- The evaluation of a name of `overload` asks for the declaration it stands for at most, and
leaves the store and what is kept of functions. The name is read as what marks overloads, unless a
guard stands in the way. -/
theorem meets_overloadName (hbuiltins : p.builtins = foreknown.1) (hm : m.Reads p cut)
    (h : p.NamesOverload e d) (hcut : m.Blocks e d → cut e) :
    (Expressions.node p e m).Meets
      (fun _ m' => m'.Reads p cut ∧ m'.store = m.store ∧ m'.functions = m.functions)
      (fun q m₁ a m' => q.answer p m₁ = some (a, m'))
      fun r => (∃ t, r.1 = some t ∧ p.Reads cut e t) ∧ r.2.Reads p cut ∧
        r.2.store = m.store ∧ r.2.functions = m.functions := by
  unfold Expressions.node
  rw [Query.get_bind]
  cases hkept : m.nodeTypes.lookup e with
  | some t => exact ⟨⟨t, rfl, hm.names e d h t hkept⟩, hm, rfl, rfl⟩
  | none =>
    dsimp only
    rw [guarded_eq]
    -- The name has a guard, and the import that it asks for has another one.
    by_cases hentered : ((nodeSlot.guard m).enter e).1 = .entered
    · have hput : ∀ g {m₁ : Memory}, m₁.Reads p cut → (nodeSlot.put g m₁).Reads p cut :=
        fun _ _ hm₁ => hm₁.mono (.refl _) rfl rfl
      rw [if_pos hentered, compute_overloadName h]
      refine ⟨⟨hput _ hm, rfl, rfl⟩, fun a m' ha => ?_⟩
      obtain ⟨t, m'', hrule, hstore, hfunctions, hreads, ht⟩ :=
        exists_declaration hbuiltins (hput _ hm) h
      obtain ⟨rfl, rfl⟩ := Prod.mk.inj (Option.some.inj
        ((Query.answer_of_rule (q := .declaration d) hrule).symm.trans ha))
      have hread : p.Reads cut e t :=
        ht.imp_right fun ⟨hincomplete, hcycle⟩ => ⟨hincomplete, hcut ⟨hkept, .inr hcycle⟩⟩
      exact ⟨⟨t, rfl, hread⟩, (hput _ hreads).keepNode fun _ _ => hread, hstore, hfunctions⟩
    · rw [if_neg hentered]
      exact ⟨⟨_, rfl, .inr ⟨rfl, hcut ⟨hkept, .inl hentered⟩⟩⟩, hm, rfl, rfl⟩

end Evaluation

end TypeProbe
