import TypeProbe.Proofs.Inference.Calls
import TypeProbe.Proofs.Tree.Arena

/-!
# The rules for type hints work

A type hint leads to the types of names and expressions, to the classes that are generic in its type
variables, and to hints further down the tree.
-/

open TypeProbe.TypeStore

namespace TypeProbe.Evaluation

open Hints

variable {p : Program} {may : Query → Memory → Prop} {m : Memory} {type : TypeId}

/-- Whether a class is generic in a type variable may be asked. -/
theorem works_isTypeParameter (h : Allows may m Query.classDef) (classNode : NodeId)
    (detail : TypeVarId) : Works p may m (isTypeParameter classNode detail) fun _ _ => True := by
  refine (works_askClassDef h classNode).bind fun types m1 h1 _ => ?_
  split
  · exact .ret fun _ => trivial
  · refine .store ?_
    split
    · exact .ret fun _ => trivial
    · exact .ret fun _ => trivial

/-- The definition that a type variable belongs to may be asked for. -/
theorem works_typeVarScope? (h : Allows may m Query.classDef) (detail : TypeVarId)
    (context : NodeId) : Works p may m (typeVarScope? p detail context) fun _ _ => True := by
  unfold typeVarScope?
  split
  · exact .ret fun _ => trivial
  · split
    · refine (works_isTypeParameter h _ detail).bind fun found m1 h1 _ => ?_
      split
      · exact .ret fun _ => trivial
      · exact .ret fun _ => trivial
    · exact .ret fun _ => trivial

/-- A type variable as it is used at a node is a type. -/
theorem works_scopedTypeVar (h : Allows may m Query.classDef) (htype : type.In m.store)
    (context : NodeId) : Works p may m (scopedTypeVar p type context) TypeId.In := by
  refine .intro fun hm => .store ?_
  split
  · rename_i detail scope scopedName hshape
    have hdetail : detail.In m.store := hm.store.detail type _ hshape
    refine (works_typeVarScope? h detail context).bind fun scope m1 h1 _ => ?_
    split
    · exact .ret fun _ => htype.mono h1.store
    · refine .get ?_
      split
      · rename_i known hknown
        exact .ret fun hm1 => (hm1.scopedTypeVars _ (mem_of_lookup hknown)).2
      · extract_lets name shape
        have hshape : shape.DetailIn m1.store := TypeVarId.In.mono hdetail h1.store
        refine (Works.onStore (works_addValue hasAll_nil hshape)).bind fun fresh m2 h2 hfresh => ?_
        have hkept := hdetail.mono (h1.trans h2).store
        refine (Works.change fun hm2 => ⟨{ hm2 with
          scopedTypeVars := List.forall_mem_cons.2 ⟨⟨hkept, hfresh⟩, hm2.scopedTypeVars⟩ },
          { Memory.Grows.refl m2 with }⟩).bind fun _ m3 h3 _ => .ret fun _ => hfresh.mono h3.store
  · exact .ret fun _ => htype

/-- A class denotes a type. -/
theorem works_classValues {detail : ClassId} {arguments : Option (List TypeId)}
    (hdetail : detail.In m.store) (harguments : m.store.HasAll (arguments.getD [])) :
    Works p may m (classValues detail arguments) TypeId.In := by
  refine .store ?_
  split
  · exact works_unknown
  · split
    · exact .ret fun hm => by split <;> exact hm.store.basic_in (by decide)
    · split
      · exact .onStore (works_specializedInstance hdetail harguments)
      · exact .onStore (works_instanceOf_in hdetail)

/-- The value of a type hint denotes a type. -/
theorem works_denoted (h : Allows may m Query.classDef) (htype : type.In m.store)
    (context : NodeId) : Works p may m (denoted p type context) TypeId.In := by
  refine .intro fun hm => .store ?_
  split
  · exact works_unknown
  · rename_i t hget
    have hshape := shape?_of_get? hget
    split
    · rename_i detail arguments _ ht
      rw [ht] at hshape
      split
      · exact works_classValues (hm.store.detail type _ hshape) (hm.store.hasAll_parts hshape)
      · exact works_unknown
    · exact works_scopedTypeVar h htype context
    · exact .ret fun _ => htype
    · exact .ret fun _ => htype
    · exact .ret fun _ => htype
    · exact .ret fun _ => htype
    · exact works_unknown

/-- A text in a type hint denotes a type. -/
theorem works_forwardReference (hclass : Allows may m Query.classDef)
    (hdeclaration : AllowsDeclarations p may m) (n : NodeId) (strings : List NodeId) :
    Works p may m (forwardReference p n strings) TypeId.In := by
  unfold forwardReference
  split
  · split
    · exact (works_lookup hdeclaration n _).bind fun type m1 h1 htype =>
        works_denoted (hclass.mono h1) htype n
    · exact works_unknown
  · exact works_unknown

/-- A value that a special form names has a type. -/
theorem works_literalType (h : Allows may m Query.node) (n : NodeId) :
    Works p may m (literalType p n) TypeId.In := by
  refine .intro fun hm => ?_
  unfold literalType
  extract_lets b
  split
  · exact .onStore (works_literal hm.builtins.int _)
  · exact .onStore (works_literal hm.builtins.bool _)
  · exact .onStore (works_literal hm.builtins.bool _)
  · exact .ret fun hm => hm.store.basic_in (by decide)
  · split
    · exact .onStore (works_literal hm.builtins.int _)
    · exact works_unknown
  · exact works_typeOf h n
  · exact works_unknown

/-! ## Subscripts -/

section Subscripts

variable {hints : List NodeId}

/-- From a memory on, the types that these hints denote may be asked for. -/
def AllowsHints (may : Query → Memory → Prop) (m : Memory) (hints : List NodeId) : Prop :=
  ∀ m', m.Grows m' → ∀ n ∈ hints, may (.hint n) m'

/-- One of the hints denotes a type. -/
theorem works_askHintOf (h : AllowsHints may m hints) {n : NodeId} (hn : n ∈ hints) :
    Works p may m (ask (.hint n)) TypeId.In := .ask (h m (.refl m) n hn) trivial

/-- The first hint denotes a type. -/
theorem works_firstHint (h : AllowsHints may m hints) :
    Works p may m (firstHint hints) TypeId.In := by
  unfold firstHint
  split
  · exact works_askHintOf h (List.mem_of_head? ‹_›)
  · exact works_unknown

/-- The class that the first hint is about is a type. -/
theorem works_hintedClass (h : AllowsHints may m hints) :
    Works p may m (hintedClass hints) TypeId.In := by
  unfold hintedClass
  split
  · exact works_unknown
  · refine (works_askHintOf h (List.mem_of_head? ‹_›)).bind fun type m1 h1 htype => ?_
    refine .intro fun hm1 => .store ?_
    split
    · exact .onStore (works_classType_in (hm1.store.classIdOf?_in ‹_›))
    · exact works_unknown

/-- A subscripted class denotes a type. -/
theorem works_subscriptedClass {detail : ClassId} (h : AllowsHints may m hints)
    (hnode : Allows may m Query.node) (hdetail : detail.In m.store) :
    Works p may m (subscriptedClass p detail hints) TypeId.In := by
  refine .store ?_
  split
  · refine (works_firstHint h).bind fun type m1 h1 htype => .intro fun hm1 =>
      .onStore (works_unionOf ?_)
    have hnone : TypeId.noneValue.In m1.store := hm1.store.basic_in (by decide)
    simpa using ⟨htype, hnone⟩
  · refine (Works.mapM .mono fun n hn m1 h1 => ?_).bind fun types m1 h1 htypes =>
      .onStore (works_unionOf htypes)
    exact works_askHintOf (fun m' hm' => h m' (h1.trans hm')) hn
  · exact (Works.mapM .mono fun n _ m1 h1 => works_literalType (hnode.mono h1) n).bind
      fun types m1 h1 htypes => .onStore (works_unionOf htypes)
  · exact works_hintedClass h
  · exact works_firstHint h
  · exact works_firstHint h
  · split
    · exact works_unknown
    · refine (Works.mapM .mono fun n hn m1 h1 => ?_).bind fun arguments m1 h1 harguments =>
        .onStore (works_specializedInstance (hdetail.mono h1.store) harguments)
      exact works_askHintOf (fun m' hm' => h m' (h1.trans hm')) (List.mem_filter.1 hn).1

/-- A subscripted type hint denotes a type. -/
theorem works_subscripted {n base : NodeId} {items : List NodeId}
    (h : AllowsHints may m (items.filterMap p.argumentValue?)) (hnode : Allows may m Query.node)
    (hclass : Allows may m Query.classDef) :
    Works p may m (subscripted p n base items) TypeId.In := by
  refine (works_typeOf hnode base).bind fun baseType m1 h1 hbaseType => ?_
  refine .intro fun hm1 => .store ?_
  have hdenoted := works_denoted (p := p) (hclass.mono h1) hbaseType n
  split
  · rename_i t hget
    split
    · rename_i detail hdetail
      split
      · refine works_subscriptedClass (fun m' hm' => h m' (h1.trans hm')) (hnode.mono h1) ?_
        exact hm1.store.classIdOf?_in (Option.bind_eq_some_iff.2 ⟨t, hget, hdetail⟩)
      · exact works_unknown
    · exact hdenoted
  · exact hdenoted

end Subscripts

/-- The value of an argument is a child of it. -/
theorem mem_children_of_argumentValue? {argument value : NodeId}
    (h : p.argumentValue? argument = some value) : value ∈ p.arena.children argument := by
  unfold Program.argumentValue? at h
  split at h
  · rename_i hform
    cases h
    exact Arena.mem_children_of_form? hform (by simp [Form.children])
  · cases h

/-- A type hint denotes a type, in a tree whose nodes come after their children. It may ask for
types of nodes and declarations, and for hints further down. -/
theorem works_hint {n : NodeId} (htree : p.arena.ChildrenFirst)
    (hlower : Lower p may m (n + 3)) : Works p may m (hint p n) TypeId.In := by
  have hnode : Allows may m Query.node :=
    hlower.allows (fun _ => trivial) (fun _ => rfl) fun _ _ => Nat.succ_pos _
  have hclass : Allows may m Query.classDef :=
    hlower.allows (fun _ => trivial) (fun _ => rfl) fun _ _ => Nat.succ_pos _
  have hdeclaration : AllowsDeclarations p may m := hlower.allows (fun d => d.2) (fun _ => rfl)
    fun _ _ => Nat.lt_of_lt_of_le (by decide : 2 < 3) (Nat.le_add_left 3 n)
  have hhint : ∀ m', m.Grows m' → ∀ c, c < n → may (.hint c) m' := fun m' hm' c hc =>
    hlower m' hm' _ trivial rfl (by show c + 3 < n + 3; exact Nat.add_lt_add_right hc 3)
  unfold hint
  split
  · exact works_unknown
  · exact .ret fun hm => hm.store.basic_in (by decide)
  · exact works_forwardReference hclass hdeclaration n _
  · rename_i left right _ hform
    have hleft := htree n left (Arena.mem_children_of_form? hform (by simp [Form.children]))
    have hright := htree n right (Arena.mem_children_of_form? hform (by simp [Form.children]))
    have hasked := hhint m (.refl m) left hleft
    refine (Works.ask hasked trivial).bind fun leftType m1 h1 hleftType => ?_
    refine (Works.ask (hhint m1 h1 right hright) trivial).bind fun rightType m2 h2 hrightType => ?_
    exact .onStore (works_unionOf (hasAll_cons.2 ⟨TypeId.In.mono hleftType h2.store,
      hasAll_cons.2 ⟨hrightType, hasAll_nil⟩⟩))
  · rename_i base items hform
    refine works_subscripted (fun m' hm' c hc => hhint m' hm' c ?_) hnode hclass
    obtain ⟨argument, hargument, hvalue⟩ := List.mem_filterMap.1 hc
    have houter := htree n argument (Arena.mem_children_of_form? hform (by
      simp [Form.children, hargument]))
    exact Nat.lt_trans (htree argument c (mem_children_of_argumentValue? hvalue)) houter
  · exact (works_typeOf hnode n).bind fun type m1 h1 htype =>
      works_denoted (hclass.mono h1) htype n

end TypeProbe.Evaluation
