import TypeProbe.Proofs.Inference.Hints

/-!
# The rules for expressions work

The type of a node is worked out under a guard, so the rules for expressions may ask anything.
-/

open TypeProbe.TypeStore

namespace TypeProbe.Evaluation

open Expressions

variable {p : Program} {may : Query → Memory → Prop} {m : Memory}

/-- Texts in a row have a type. -/
theorem works_texts (strings : List NodeId) : Works p may m (texts p strings) TypeId.In := by
  refine .intro fun hm => ?_
  unfold texts
  extract_lets b isBytes
  split
  · exact .onStore (works_instanceOf_in hm.builtins.bytes)
  · split
    · exact .onStore (works_literal hm.builtins.text _)
    · exact .onStore (works_instanceOf_in hm.builtins.text)

/-- An entry of a display has a type. -/
theorem works_entry (h : Free p may m) (n : NodeId) : Works p may m (entry p n) TypeId.In := by
  have hnode : Allows may m Query.node := .of_all h fun _ => trivial
  have hwiden : ∀ type m', m.Grows m' → type.In m'.store →
      Works p may m' (onStore (widen type)) TypeId.In := fun type m' _ htype =>
    .onStore (works_widen htype)
  unfold entry
  extract_lets next
  split
  · refine (works_typeOf hnode _).bind fun type m1 h1 htype => .intro fun hm1 => ?_
    exact (Works.onStore (Values.works_iteratedAt _ hm1.builtins)).bind fun item m2 h2 hitem =>
      hwiden item m2 (h1.trans h2) hitem
  · exact (works_typeOf hnode _).bind hwiden
  · exact (works_typeOf hnode _).bind hwiden

/-- The display of a list or a set has a type. -/
theorem works_display (h : Free p may m) {detail : ClassId} (hdetail : detail.In m.store)
    (entries : List NodeId) : Works p may m (display p detail entries) TypeId.In := by
  refine (Works.mapM .mono fun n _ m' hm' => works_entry (h.mono hm') n).bind
    fun types m1 h1 htypes => ?_
  refine (Works.onStore (Values.works_unionOrUnknown htypes)).bind fun item m2 h2 hitem => ?_
  exact .onStore (works_specializedInstance (hdetail.mono (h1.trans h2).store)
    (hasAll_cons.2 ⟨hitem, hasAll_nil⟩))

/-- An entry of a dictionary has types. -/
theorem works_dictionaryEntry (h : Free p may m) (n : NodeId) :
    Works p may m (dictionaryEntry p n) fun t s => ∀ pair ∈ t, pair.1.In s ∧ pair.2.In s := by
  have hnode : Allows may m Query.node := .of_all h fun _ => trivial
  unfold dictionaryEntry
  extract_lets inner
  split
  · refine (works_typeOf hnode _).bind fun key m1 h1 hkey => ?_
    refine (works_typeOf (hnode.mono h1) _).bind fun value m2 h2 hvalue => ?_
    refine (Works.onStore (works_widen (hkey.mono h2.store))).bind fun key' m3 h3 hkey' => ?_
    refine (Works.onStore (works_widen (hvalue.mono h3.store))).bind fun value' m4 h4 hvalue' => ?_
    refine .ret fun _ pair hpair => ?_
    cases hpair
    exact ⟨hkey'.mono h4.store, hvalue'⟩
  · refine (works_typeOf hnode _).bind fun expanded m1 h1 _ => .intro fun hm1 => .store ?_
    split
    · rename_i keyType valueType harguments
      obtain ⟨hkey, hvalue⟩ := hasAll_cons.1 (hm1.store.hasAll_argumentsOf harguments)
      refine .ret fun _ pair hpair => ?_
      cases hpair
      exact ⟨hkey, (hasAll_cons.1 hvalue).1⟩
    · exact .ret fun _ => nofun
  · exact .ret fun _ => nofun

/-- The display of a dictionary has a type. -/
theorem works_dictionary (h : Free p may m) (entries : List NodeId) :
    Works p may m (dictionary p entries) TypeId.In := by
  refine (Works.filterMapM (fun hpair hs => ⟨hpair.1.mono hs, hpair.2.mono hs⟩) fun n _ m' hm' =>
    works_dictionaryEntry (h.mono hm') n).bind fun pairs m1 h1 hpairs => ?_
  have hkeys : m1.store.HasAll (pairs.map (·.1)) := by
    intro id hid
    obtain ⟨pair, hpair, rfl⟩ := List.mem_map.1 hid
    exact (hpairs pair hpair).1
  have hvalues : m1.store.HasAll (pairs.map (·.2)) := by
    intro id hid
    obtain ⟨pair, hpair, rfl⟩ := List.mem_map.1 hid
    exact (hpairs pair hpair).2
  refine (Works.onStore (Values.works_unionOrUnknown hkeys)).bind fun key m2 h2 hkey => ?_
  refine (Works.onStore (Values.works_unionOrUnknown (hvalues.mono h2.store))).bind
    fun value m3 h3 hvalue => .intro fun hm3 => ?_
  exact .onStore (works_specializedInstance hm3.builtins.dictionary
    (hasAll_cons.2 ⟨hkey.mono h3.store, hasAll_cons.2 ⟨hvalue, hasAll_nil⟩⟩))

/-- A function without a name has a type. -/
theorem works_lambda (n : NodeId) (parameters : List NodeId) :
    Works p may m (Expressions.lambda p n parameters) TypeId.In := by
  refine .intro fun hm => ?_
  refine (Works.onStore (works_addFunction ?_)).bind fun detail m1 h1 hdetail =>
    .onStore (works_addValue hasAll_nil hdetail)
  have hunknown : TypeId.unknown.In m.store := hm.store.basic_in (by decide)
  refine hasAll_append.2 ⟨fun id hid => ?_, hasAll_nil⟩
  obtain ⟨parameter, hparameter, rfl⟩ := List.mem_map.1 hid
  obtain ⟨child, -, hchild⟩ := List.mem_filterMap.1 hparameter
  unfold lambdaParameter? at hchild
  split at hchild
  · cases hchild
    exact hunknown
  · cases hchild

/-- An argument that is passed by its place has a type. -/
theorem works_positional (h : Free p may m) (n : NodeId) :
    Works p may m (positional p n) fun t s => ∀ id ∈ t, id.In s := by
  unfold positional
  split
  · refine (works_typeOf (.of_all h fun _ => trivial) _).bind
      fun type m1 h1 htype => .ret fun _ => ?_
    split
    · exact forall_mem_some htype
    · exact nofun
  · exact .ret fun _ => nofun

/-- An argument is taken into account when a type variable is made. -/
theorem works_typeVarArgument (h : Free p may m) {v : TypeVarDetail} (hv : m.store.HasAll v.types)
    (place : Nat) (n : NodeId) :
    Works p may m (typeVarArgument p v place n) fun v s => s.HasAll v.types := by
  have hhint : Allows may m Query.hint := .of_all h fun _ => trivial
  unfold typeVarArgument
  split
  · split
    · split
      · refine (works_typeOf (.of_all h fun _ => trivial) _).bind fun type m1 h1 _ => .store ?_
        split
        · exact .ret fun _ => hv.mono h1.store
        · exact .ret fun _ => hv.mono h1.store
      · refine (works_askHint hhint _).bind fun type m1 h1 htype => .ret fun _ => ?_
        obtain ⟨hconstraints, hbound⟩ := hasAll_append.1 (hv.mono h1.store)
        exact hasAll_append.2 ⟨hasAll_append.2 ⟨hconstraints, hasAll_cons.2 ⟨htype, hasAll_nil⟩⟩,
          hbound⟩
    · refine (works_askHint hhint _).bind fun type m1 h1 htype => .ret fun _ => ?_
      exact hasAll_append.2 ⟨(hasAll_append.1 (hv.mono h1.store)).1,
        hasAll_cons.2 ⟨htype, hasAll_nil⟩⟩
    · exact .ret fun _ => by split <;> exact hv
    · exact .ret fun _ => by split <;> exact hv
    · exact .ret fun _ => hv
  · exact .ret fun _ => hv

/-- A new type variable has a type. -/
theorem works_newTypeVar (h : Free p may m) (arguments : List NodeId) :
    Works p may m (newTypeVar p arguments) TypeId.In := by
  unfold newTypeVar
  extract_lets unnamed
  have hfold : Works p may m (arguments.zipIdx.foldlM
      (fun v argument => typeVarArgument p v argument.2 argument.1) unnamed)
      fun v s => s.HasAll v.types :=
    .foldlM hasAll_nil fun v argument _ m' hm' hv => works_typeVarArgument (h.mono hm') hv _ _
  refine hfold.bind fun v m1 h1 hv => ?_
  refine (Works.onStore (works_addTypeVar hv)).bind fun detail m2 h2 hdetail => ?_
  exact (Works.onStore (works_add (t := ⟨classFlags, .typeVar detail none none⟩) hasAll_nil
    hdetail)).weaken fun _ _ _ _ hid => in_of_get? hid

/-- A call has a type. -/
theorem works_callExpression (h : Free p may m) (callee : NodeId) (arguments : List NodeId) :
    Works p may m (Expressions.call p callee arguments) TypeId.In := by
  unfold Expressions.call
  extract_lets b
  refine (works_typeOf (.of_all h fun _ => trivial) callee).bind fun calleeType m1 h1 hcallee => ?_
  refine (Works.filterMapM .mono fun n _ m' hm' =>
    works_positional (h.mono (h1.trans hm')) n).bind fun types m2 h2 htypes => ?_
  have h02 := h1.trans h2
  refine .intro fun hm2 => .store ?_
  split
  · exact works_newTypeVar (h.mono h02) arguments
  · split
    · split
      · rename_i detail hdetail
        obtain ⟨type, -, hclass⟩ := Option.bind_eq_some_iff.1 hdetail
        exact .onStore (works_classType_in (hm2.store.instanceClass?_in hclass))
      · exact works_unknown
    · exact works_askCall ((h.mono h02).now trivial) (hcallee.mono h2.store) htypes

/-- A member that is taken from a value has a type. -/
theorem works_memberAccess (h : Free p may m) (left member : NodeId) :
    Works p may m (memberAccess p left member) TypeId.In := by
  refine (works_typeOf (.of_all h fun _ => trivial) left).bind fun object m1 h1 hobject => ?_
  split
  · exact (works_askMember ((h.mono h1).now trivial) hobject).bind fun found m2 h2 hfound =>
      .ret fun hm2 => getD_in hm2.store hfound
  · exact works_unknown

/-- The class that a type of values denotes is a type. -/
theorem works_asClass {type : TypeId} (htype : type.In m.store) :
    Works p may m (asClass type) TypeId.In := by
  refine .intro fun hm => .store ?_
  split
  · rename_i t hget
    have hshape := shape?_of_get? hget
    split
    · exact (Works.onStore (works_add (t := ⟨classFlags, t.shape⟩) (hm.store.hasAll_parts hshape)
        (hm.store.detail type _ hshape))).weaken fun _ _ _ _ hid => in_of_get? hid
    · exact .ret fun _ => htype
  · exact .ret fun _ => htype

/-- A class that is subscripted as a value has a type. -/
theorem works_subscriptedClassValue (h : Free p may m) {detail : ClassId}
    (hdetail : detail.In m.store)
    (n : NodeId) (items : List NodeId) :
    Works p may m (Expressions.subscriptedClass p n detail items) TypeId.In := by
  have hhint : Allows may m Query.hint := .of_all h fun _ => trivial
  refine .store ?_
  split
  · exact (works_askHint hhint n).bind fun type m1 h1 htype => works_asClass htype
  · exact (Works.mapM .mono fun value _ m' hm' => works_askHint (hhint.mono hm') value).bind
      fun arguments m1 h1 harguments =>
        .onStore (works_specializedClass (hdetail.mono h1.store) harguments)

/-- What stands in the brackets of a subscript has a type. -/
theorem works_subscriptType (h : Free p may m) (items : List NodeId) :
    Works p may m (subscriptType p items) TypeId.In := by
  have hnode : Allows may m Query.node := .of_all h fun _ => trivial
  unfold subscriptType
  split
  · exact works_typeOf hnode _
  · exact (Works.mapM .mono fun value _ m' hm' => works_typeOf (hnode.mono hm') value).bind
      fun types m1 h1 htypes => .intro fun hm1 =>
        .onStore (works_specializedInstance hm1.builtins.tuple htypes)

/-- The item that a subscript picks has a type. -/
theorem works_picked (h : Free p may m) {container subscript : TypeId}
    (hcontainer : container.In m.store) (hsubscript : subscript.In m.store) :
    Works p may m (picked p container subscript) TypeId.In := by
  refine .intro fun hm => ?_
  unfold picked
  extract_lets b
  refine .store ?_
  have harguments : m.store.HasAll ((m.store.argumentsOf? container).getD []) :=
    hm.store.hasAll_arguments
  split
  · exact works_unknown
  · extract_lets isSlice arguments
    split
    · exact .onStore (works_instanceOf_in hm.builtins.text)
    · split
      -- A slice of a list is one of the same type, and an element has the type argument.
      · refine .ret fun hm => ?_
        split
        · exact hcontainer
        · exact (Values.works_headD harguments hm.store).2.2
      · split
        · exact .ret fun hm => Values.getElemD_in hm.store harguments 1
        · split
          · split
            · exact .onStore (works_instanceOf_in hm.builtins.tuple)
            · split
              · rename_i type htype
                obtain ⟨i, -, hi⟩ := Option.bind_eq_some_iff.1 htype
                exact .ret fun _ => harguments _ (List.mem_of_getElem? hi)
              · exact .onStore (Values.works_unionOrUnknown harguments)
          · exact works_callMemberD (h.now trivial)
              (fun m' hm' callee => (h.mono hm').now trivial) hcontainer
              (hasAll_cons.2 ⟨hsubscript, hasAll_nil⟩)

/-- A subscript has a type. -/
theorem works_index (h : Free p may m) (n base : NodeId) (items : List NodeId) :
    Works p may m (index p n base items) TypeId.In := by
  refine (works_typeOf (.of_all h fun _ => trivial) base).bind fun baseType m1 h1 hbase => ?_
  refine .intro fun hm1 => .store ?_
  split
  · exact works_unknown
  · rename_i t hget
    split
    · rename_i detail hdetail
      have hclass : m1.store.classIdOf? baseType = some detail := by
        rw [classIdOf?, hget]
        split at hdetail
        · exact hdetail
        · cases hdetail
      exact works_subscriptedClassValue (h.mono h1) (hm1.store.classIdOf?_in hclass) n items
    · exact (works_subscriptType (h.mono h1) items).bind fun subscript m2 h2 hsubscript =>
        works_picked ((h.mono h1).mono h2) (hbase.mono h2.store) hsubscript

/-! ## Names -/

/-- The declaration of a node gives a type if there is one. -/
theorem works_declared (h : Free p may m) (n : NodeId) :
    Works p may m (declared p n) fun t s => ∀ id ∈ t, id.In s := by
  unfold declared
  split
  · rename_i d hd
    exact (works_askDeclaration (.of_all h fun d => d.2) (Bindings.knows_of_declaration? hd)).bind
      fun type _ _ htype => .ret fun _ => forall_mem_some htype
  · exact .ret fun _ => nofun

/-- A name that is no part of the construct around it has a type. -/
theorem works_plainName (h : Free p may m) (n : NodeId) (value : String) :
    Works p may m (plainName p n value) fun t s => ∀ id ∈ t, id.In s := by
  refine (works_declared h n).bind fun found m1 h1 hfound => ?_
  split
  · exact .ret fun _ => forall_mem_some (hfound _ rfl)
  · exact (works_lookup (.of_all (h.mono h1) fun d => d.2) n value).bind fun type _ _ htype =>
      .ret fun _ => forall_mem_some htype

/-- What decorators make of a definition is there if the definition is. -/
theorem forall_mem_decorated {s : TypeStore} {types : Option DefinitionTypes}
    (h : ∀ t ∈ types, t.In s) : ∀ id ∈ types.map (·.decorated), id.In s := by
  intro id hid
  obtain ⟨t, ht, rfl⟩ := Option.map_eq_some_iff.1 hid
  exact (h t ht).2

/-- A name has a type if it has a value. -/
theorem works_name (h : Free p may m) (n : NodeId) (value : String) :
    Works p may m (name p n value) fun t s => ∀ id ∈ t, id.In s := by
  have hplain := works_plainName (p := p) h n value
  unfold name
  -- What a name stands for depends on the node around it; elsewhere it is read.
  split
  · exact hplain
  · split
    · split
      · exact (works_askFunction (.of_all h fun _ => trivial) _).bind fun types _ _ htypes =>
          .ret fun _ => forall_mem_decorated htypes
      · exact hplain
    · split
      · exact (works_askClassDef (.of_all h fun _ => trivial) _).bind fun types _ _ htypes =>
          .ret fun _ => forall_mem_decorated htypes
      · exact hplain
    · split
      · exact (works_parameter h _).bind fun type _ _ htype => .ret fun _ => forall_mem_some htype
      · exact hplain
    · split
      · exact works_askNode (.of_all h fun _ => trivial) _
      · exact hplain
    · split
      · exact .ret fun _ => nofun
      · exact hplain
    · split
      · split
        · exact works_declared h _
        · exact .ret fun _ => nofun
      · exact .ret fun _ => nofun
    · exact works_declared h _
    · exact works_declared h _
    · exact hplain

/-! ## Nodes -/

/-- What surely has a type has one if it has a value. -/
theorem works_whole {e : Evaluation TypeId} (h : Works p may m e TypeId.In) :
    Works p may m (some <$> e) fun t s => ∀ id ∈ t, id.In s :=
  h.map fun _ _ hid => forall_mem_some hid

/-- A node has a type if it has a value. -/
theorem works_compute (h : Free p may m) (n : NodeId) :
    Works p may m (compute p n) fun t s => ∀ id ∈ t, id.In s := by
  have hnode : Allows may m Query.node := .of_all h fun _ => trivial
  have hiterated : ∀ type m', Works p may m'
      (onStore (Values.iterated p.builtins type)) TypeId.In := fun type m' =>
    .intro fun hm' => .onStore (Values.works_iteratedAt _ hm'.builtins)
  refine .intro fun hm => ?_
  have hb := hm.builtins
  unfold compute
  extract_lets b whole
  -- The cases are those of the forms of expressions, in their order.
  split
  · exact .ret fun _ => nofun
  · exact works_name h n _
  · exact works_whole (.onStore (Values.works_number hb _))
  · exact works_whole (.onStore (Values.works_constant hb _))
  · exact works_whole (.onStore (works_instanceOf_in hb.ellipsis))
  · exact works_whole (works_texts _)
  · exact works_whole (works_texts _)
  · exact works_whole (works_texts _)
  · refine works_whole ?_
    exact (Works.mapM .mono fun item _ m' hm' => works_typeOf (hnode.mono hm') item).bind
      fun types m1 h1 htypes =>
        .onStore (works_specializedInstance (hb.tuple.mono h1.store) htypes)
  · exact works_whole (works_display h hb.list _)
  · exact works_whole (works_display h hb.set _)
  · exact works_whole (works_dictionary h _)
  · refine works_whole ((works_typeOf hnode _).bind fun type m1 h1 htype => ?_)
    refine (Works.onStore (works_widen htype)).bind fun item m2 h2 hitem => .intro fun hm2 => ?_
    have hnone : TypeId.noneValue.In m2.store := hm2.store.basic_in (by decide)
    exact .onStore (works_specializedInstance hm2.builtins.generator
      (hasAll_cons.2 ⟨hitem, hasAll_cons.2 ⟨hnone, hasAll_cons.2 ⟨hnone, hasAll_nil⟩⟩⟩))
  · exact works_whole ((works_typeOf hnode _).bind fun type m1 h1 htype =>
      works_unary (h.mono h1) _ htype)
  · refine works_whole ((works_typeOf hnode _).bind fun left m1 h1 hleft => ?_)
    exact (works_typeOf (hnode.mono h1) _).bind fun right m2 h2 hright =>
      works_binary ((h.mono h1).mono h2) _ (hleft.mono h2.store) hright
  · refine works_whole ((works_typeOf hnode _).bind fun _ m1 h1 _ => ?_)
    refine (works_typeOf (hnode.mono h1) _).bind fun ifType m2 h2 hif => ?_
    refine (works_typeOf ((hnode.mono h1).mono h2) _).bind fun elseType m3 h3 helse => ?_
    exact .onStore (works_unionOf
      (hasAll_cons.2 ⟨hif.mono h3.store, hasAll_cons.2 ⟨helse, hasAll_nil⟩⟩))
  · exact works_whole (works_typeOf hnode _)
  · exact works_whole (works_askHint (.of_all h fun _ => trivial) _)
  · exact works_whole ((works_typeOf hnode _).bind fun type m1 _ _ =>
      .store (.ret fun hm1 => Values.awaited_in hm1.store))
  · exact works_whole ((works_typeOf hnode _).bind fun type m1 _ _ => hiterated type m1)
  · exact .ret fun hm => forall_mem_some (hm.store.basic_in (by decide))
  · exact .ret fun hm => forall_mem_some (hm.store.basic_in (by decide))
  · exact works_whole (works_callExpression h _ _)
  · exact works_whole (works_memberAccess h _ _)
  · exact works_whole (works_index h n _ _)
  · exact works_whole (.onStore (works_instanceOf_in hb.slice))
  · exact works_whole (works_lambda n _)
  · refine works_whole ?_
    split
    · exact (works_askNode hnode _).bind fun _ m1 _ _ => works_unknown
    · exact works_unknown
  · exact .ret fun _ => nofun

/-- A node has a type if it has a value, and it has it from then on. The rule may ask anything if
less energy is left. -/
theorem works_node (hdeeper : Deeper p may m) (n : NodeId) :
    Works p may m (Expressions.node p n) fun t s => ∀ id ∈ t, id.In s := by
  refine .get ?_
  split
  · rename_i type htype
    exact .ret fun hm => forall_mem_some (hm.nodeTypes _ (mem_of_lookup htype))
  · refine works_guarded lawful_nodeSlot hdeeper
      (fun hm => forall_mem_some (hm.store.basic_in (by decide)))
      (fun m' _ hfree => works_compute hfree n) fun type? m' hm' hfree htype => ?_
    cases type? with
    | none => exact ⟨hm', .refl m', htype⟩
    | some type =>
      have hactive : ∀ n' ∈ m'.nodeGuard.active,
          ((n, type) :: m'.nodeTypes).lookup n' = m'.nodeTypes.lookup n' := by
        intro n' hn'
        have hne : n' ≠ n := fun heq => hfree (heq ▸ hn')
        exact lookup_cons_of_ne hne m'.nodeTypes type
      exact ⟨{ hm' with
        nodeTypes := List.forall_mem_cons.2 ⟨htype type rfl, hm'.nodeTypes⟩ },
        { Memory.Grows.refl m' with active := hactive }, htype⟩

end TypeProbe.Evaluation
