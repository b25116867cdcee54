import Mathlib.Data.List.Induction
import TypeProbe.Proofs.Inference.Guarded

/-!
# The rules for operations and names work

Operations lead to calls of members. A name leads to its declarations, and a declaration to the
types of definitions or, under a guard, to anything.
-/

namespace TypeProbe

open TypeStore

namespace Evaluation

variable {p : Program} {may : Query → Memory → Prop} {m : Memory}

/-! ## Operations -/

section Operations

open Operations

variable {left right : TypeId}

/-- An operation on one operand works. -/
theorem works_unary (h : Free p may m) (op : Operator) (hoperand : left.In m.store) :
    Works p may m (unary p op left) TypeId.In := by
  refine .intro fun hm => ?_
  have hint := hm.builtins.int
  unfold unary
  extract_lets b viaMember
  have hviaMember : Works p may m viaMember TypeId.In := by
    dsimp only [viaMember]
    split
    · exact works_callMemberD (h.now trivial) (fun m' hm' callee => (h.mono hm').now trivial)
        hoperand hasAll_nil
    · exact works_unknown
  split
  · exact .onStore (works_instanceOf_in hm.builtins.bool)
  -- Numbers have operators of their own, and other values have members for them.
  · refine .store ?_
    split
    · exact hviaMember
    · rename_i detail literal hinstance
      have hdetail := hm.store.instance?_in hinstance
      split
      · split
        · exact .onStore (works_literal hint _)
        · exact .ret fun _ => hoperand
        · exact .onStore (works_instanceOf_in hint)
      · split
        · exact .onStore (works_instanceOf_in hdetail)
        · exact hviaMember

/-- An operation between known classes works. -/
theorem works_known? (op : Operator) (hleft : left.In m.store) :
    Works p may m (known? p op left right) fun t s => ∀ id ∈ t, id.In s := by
  refine .intro fun hm => .store ?_
  have hgiven : ∀ {work : StateM TypeStore TypeId}, m.store.Works work TypeId.In →
      Works p may m (do return some (← onStore work)) fun t s => ∀ id ∈ t, id.In s := by
    intro work hwork
    exact (Works.onStore hwork).bind fun id _ _ hid => .ret fun _ => forall_mem_some hid
  split
  · split
    · exact hgiven (Values.works_arithmetic hm.builtins op _ _ _)
    · extract_lets isText
      split
      · exact hgiven (works_instanceOf_in hm.builtins.text)
      · split
        · exact hgiven (works_widen hleft)
        · exact .ret fun _ => nofun
  · exact .ret fun _ => nofun

/-- An operation between two values works. -/
theorem works_binary (h : Free p may m) (op : Operator) (hleft : left.In m.store)
    (hright : right.In m.store) : Works p may m (binary p op left right) TypeId.In := by
  refine .intro fun hm => ?_
  unfold binary
  split
  · exact .onStore (works_unionOf (hasAll_cons.2 ⟨hleft, hasAll_cons.2 ⟨hright, hasAll_nil⟩⟩))
  · split
    · exact .onStore (works_instanceOf_in hm.builtins.bool)
    · refine (works_known? op hleft).bind fun found m1 h1 hfound => ?_
      split
      · exact .ret fun _ => hfound _ rfl
      · split
        · exact works_callMemberD ((h.mono h1).now trivial)
            (fun m' hm' callee => (h.mono (h1.trans hm')).now trivial)
            (hleft.mono h1.store) (hasAll_cons.2 ⟨hright.mono h1.store, hasAll_nil⟩)
        · exact works_unknown

end Operations

/-! ## Names -/

section Names

open Names

/-- What the decorators of a definition make of it is there. -/
theorem decoratedType_in {s : TypeStore} {types : Option DefinitionTypes} (hs : s.Sound)
    (h : ∀ t ∈ types, t.In s) : (decoratedType types).In s := by
  cases types with
  | none => exact hs.basic_in (by decide)
  | some t => exact (h t rfl).2

/-- The members of a module have handles of the store. -/
theorem memberOf?_in {s : TypeStore} {module id : TypeId} {name : String} (hs : s.Sound)
    (h : Builtins.memberOf? s module name = some id) : id.In s := by
  unfold Builtins.memberOf? at h
  split at h
  · rename_i hshape
    exact hs.hasAll_parts hshape id (mem_values_of_get? h)
  · cases h

/-- A name that no scope declares has a type. -/
theorem works_undeclared (name : String) : Works p may m (undeclared p name) TypeId.In := by
  refine .intro fun hm => .store ?_
  split
  · rename_i type htype
    obtain ⟨module, -, hmember⟩ := Option.bind_eq_some_iff.1 htype
    exact .ret fun hm => memberOf?_in hm.store hmember
  · split
    · exact .onStore (works_instanceOf_in hm.builtins.text)
    · exact works_unknown

/-- The last of some declarations is the latest one unless an earlier one starts behind it. -/
theorem latest?_concat (p : Program) (ds : List Declaration) (d : Declaration) :
    p.latest? (ds ++ [d]) = some ((p.latest? ds).elim d fun b =>
      if p.arena.startOf b.node ≤ p.arena.startOf d.node then d else b) := by
  unfold Program.latest?
  rw [List.foldl_append, List.foldl_cons, List.foldl_nil]
  split
  · rename_i b hb
    rw [hb]
    exact (apply_ite some _ _ _).symm
  · rename_i hnone
    rw [hnone]
    rfl

/-- The latest of some declarations is one of them. -/
theorem mem_of_latest? {ds : List Declaration} {d : Declaration} (h : p.latest? ds = some d) :
    d ∈ ds := by
  induction ds using List.reverseRecOn generalizing d with
  | nil => exact absurd h.symm (Option.some_ne_none d)
  | append_singleton ds e ih =>
    rw [latest?_concat] at h
    have hlast : e ∈ ds ++ [e] := List.mem_append_right ds List.mem_cons_self
    obtain rfl := Option.some.inj h
    cases hlatest : p.latest? ds with
    | none => exact hlast
    | some b =>
      show (if _ then e else b) ∈ _
      split
      · exact hlast
      · exact List.mem_append_left _ (ih hlatest)

/-- All declarations of a name together have a type. -/
theorem works_together (h : AllowsDeclarations p may m) {ds : List Declaration}
    (hds : ∀ d ∈ ds, p.bindings.Knows d) : Works p may m (together ds) TypeId.In := by
  unfold together
  split
  · rename_i last hlast
    obtain ⟨hlast, -⟩ := Option.filter_eq_some_iff.1 hlast
    exact works_askDeclaration h (hds last (List.mem_of_getLast? hlast))
  · split
    · rename_i declared hdeclared
      exact works_askDeclaration h (hds declared (List.mem_of_find?_eq_some hdeclared))
    · refine (Works.mapM .mono fun d hd m' hm' => ?_).bind fun types m1 h1 htypes =>
        .onStore (Values.works_unionOrUnknown htypes)
      exact (works_askDeclaration (h.mono hm') (hds d hd)).bind fun id _ _ hid =>
        .onStore (works_widen hid)

/-- The declarations of a name give a type to its use. -/
theorem works_ofDeclarations (h : AllowsDeclarations p may m) {ds : List Declaration}
    (hds : ∀ d ∈ ds, p.bindings.Knows d) (usage : NodeId) (sameScope : Bool) :
    Works p may m (ofDeclarations p ds usage sameScope) TypeId.In := by
  unfold ofDeclarations
  dsimp only
  split
  · rename_i d hd
    refine works_askDeclaration h (hds d ?_)
    split at hd
    · exact (List.mem_filter.1 (mem_of_latest? hd)).1
    · cases hd
  · exact works_together h hds

/-- A name has a type where it is used. -/
theorem works_lookup (h : AllowsDeclarations p may m) (usage : NodeId) (name : String) :
    Works p may m (lookup p usage name) TypeId.In := by
  unfold lookup
  dsimp only
  split
  · rename_i found ds hfound
    exact works_ofDeclarations h (fun d hd => Bindings.knows_of_lookup? hfound hd) usage _
  · exact works_undeclared name

/-- A function type gives its parameters types. -/
theorem works_parameterOf (n : NodeId) (parameters : List NodeId) (type : TypeId) :
    Works p may m (parameterOf n parameters type) TypeId.In := by
  refine .store ?_
  split
  · rename_i i f _ hf
    refine .ret fun hm => getD_in hm.store fun id hid => ?_
    obtain ⟨parameter, hparameter, rfl⟩ := Option.map_eq_some_iff.1 hid
    refine hm.store.hasAll_functionOf hf _ (List.mem_append_left _ ?_)
    exact List.mem_map.2 ⟨parameter, List.mem_of_getElem? hparameter, rfl⟩
  · exact works_unknown

/-- A parameter has a type. -/
theorem works_parameter (h : Free p may m) (n : NodeId) :
    Works p may m (Names.parameter p n) TypeId.In := by
  unfold Names.parameter
  split
  · exact works_unknown
  · split
    · refine (works_askFunction (.of_all h fun _ => trivial) _).bind fun types m1 h1 _ => ?_
      split
      · exact works_parameterOf n _ _
      · exact works_unknown
    · exact (works_typeOf (.of_all h fun _ => trivial) _).bind
        fun type m1 h1 _ => works_parameterOf n _ _
    · exact works_unknown

/-- The type of a module is there. -/
theorem module?_in {id : TypeId} {name : String} (hm : m.Sound p.builtins)
    (h : p.builtins.module? name = some id) : id.In m.store :=
  hm.builtins.modules id (mem_values_of_get? h)

/-- What an import names has a type. -/
theorem works_imported (n : NodeId) : Works p may m (imported p n) TypeId.In := by
  unfold imported
  split
  · exact .ret fun hm => getD_in hm.store fun id hid => module?_in hm hid
  · split
    · refine .store (.ret fun hm => getD_in hm.store fun id hid => ?_)
      obtain ⟨module, -, hmember⟩ := Option.bind_eq_some_iff.1 hid
      exact memberOf?_in hm.store hmember
    · exact works_unknown
  · exact works_unknown

/-- An assignment through an operator has a type. -/
theorem works_augmented (h : Free p may m) (op : Operator) (left right : NodeId) :
    Works p may m (augmented p op left right) TypeId.In := by
  unfold augmented
  extract_lets next
  have hnext : ∀ leftType m1, m.Grows m1 → leftType.In m1.store →
      Works p may m1 (next leftType) TypeId.In := by
    intro leftType m1 h1 hleftType
    refine (works_typeOf (.of_all (h.mono h1) fun _ => trivial) right).bind
      fun rightType m2 h2 hrightType => ?_
    split
    · exact works_binary ((h.mono h1).mono h2) _ (hleftType.mono h2.store) hrightType
    · exact works_unknown
  split
  · exact (works_lookup (.of_all h fun d => d.2) left _).bind hnext
  · exact (works_typeOf (.of_all h fun _ => trivial) left).bind hnext

/-- What a declaration takes its value from has a type. -/
theorem works_sourceType (h : Free p may m) (source : NodeId) :
    Works p may m (sourceType p source) TypeId.In := by
  unfold sourceType
  have hnode : Allows may m Query.node := .of_all h fun _ => trivial
  split
  · exact works_unknown
  · exact (works_typeOf hnode _).bind fun id m1 _ hid => .intro fun hm =>
      .onStore (Values.works_iteratedAt _ hm.builtins)
  · exact (works_typeOf hnode _).bind fun id m1 _ hid => .intro fun hm =>
      .onStore (Values.works_iteratedAt _ hm.builtins)
  · exact (works_typeOf hnode _).bind fun id m1 h1 hid =>
      works_callMemberD ((h.mono h1).now trivial)
        (fun m' hm' callee => (h.mono (h1.trans hm')).now trivial) hid hasAll_nil
  · exact (works_typeOf hnode _).bind fun id m1 _ hid => .intro fun hm =>
      .onStore (Values.works_caughtAt _ hm.builtins)
  · exact .intro fun hm => .onStore (works_instanceOf_in hm.builtins.baseException)
  · exact works_augmented h _ _ _
  · exact works_typeOf hnode source

/-- A variable without a type hint has a type. -/
theorem works_variableType (h : Free p may m) (d : Declaration) :
    Works p may m (variableType p d) TypeId.In := by
  unfold variableType
  split
  · exact works_unknown
  · split
    · exact works_unknown
    · refine (works_sourceType h _).bind fun type m1 h1 htype => ?_
      exact .foldlM htype fun type place _ m' _ _ => .intro fun hm =>
        .onStore (Values.works_unpacked hm.builtins place)

/-- A declaration gives a type. It may ask for the types of a definition, and anything if less
energy is left. -/
theorem works_declaration (hdeeper : Deeper p may m) (hclass : Allows may m Query.classDef)
    (hfunction : Allows may m Query.function) (d : Declaration) :
    Works p may m (Names.declaration p d) TypeId.In := by
  unfold Names.declaration
  split
  · exact (works_askClassDef hclass _).bind fun types _ _ htypes =>
      .ret fun hm => decoratedType_in hm.store htypes
  · exact (works_askFunction hfunction _).bind fun types _ _ htypes =>
      .ret fun hm => decoratedType_in hm.store htypes
  · refine .get ?_
    split
    · rename_i type htype
      exact .ret fun hm => hm.declarationTypes _ (mem_of_lookup htype)
    · refine works_guarded lawful_declarationSlot hdeeper (fun hm => hm.store.basic_in (by decide))
        (fun m' _ hfree => ?_) fun type m' hm' _ htype => ⟨{ hm' with
          declarationTypes := List.forall_mem_cons.2 ⟨htype, hm'.declarationTypes⟩ },
          { Memory.Grows.refl m' with }, htype⟩
      split
      · exact works_parameter hfree _
      · exact works_imported _
      · exact works_askHint (.of_all hfree fun _ => trivial) _
      · exact works_variableType hfree d

end Names

end Evaluation

end TypeProbe
