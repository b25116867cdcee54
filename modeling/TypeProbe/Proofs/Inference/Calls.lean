import TypeProbe.Proofs.Inference.Names

/-!
# The rules for calls and members work

A call of an instance of a class leads to its member for calls, and from there to a call again. A
member of a union or of a type variable leads to members of types that were there before, and in the
end to what functions return.
-/

open TypeProbe.TypeStore

namespace TypeProbe.Evaluation

open Calls

variable {p : Program} {may : Query → Memory → Prop} {m : Memory} {member object : TypeId}
  {arguments : List TypeId}

/-- From a memory on, questions of a lower rank may be asked, but for those for calls. -/
def Lower (p : Program) (may : Query → Memory → Prop) (m : Memory) (rank : Nat) : Prop :=
  ∀ m', m.Grows m' → ∀ q : Query, q.Known p → q.isCall = false → q.rank m'.store < rank → may q m'

/-- Questions of a kind may be asked where their rank is lower. -/
theorem Lower.allows {ι : Type} {f : ι → Query} {rank : Nat} (h : Lower p may m rank)
    (hknown : ∀ i, (f i).Known p) (hcall : ∀ i, (f i).isCall = false)
    (hf : ∀ s i, (f i).rank s < rank) : Allows may m f :=
  fun m' hm' i => h m' hm' _ (hknown i) (hcall i) (hf _ i)

/-- A called function returns a type. -/
theorem works_functionResult (h : Allows may m Query.returned) (detail : FunctionId) (skip : Nat)
    (harguments : m.store.HasAll arguments) :
    Works p may m (functionResult p detail arguments skip) TypeId.In := by
  refine .intro fun hm => .store ?_
  split
  · exact works_unknown
  · rename_i f hf
    extract_lets finish next
    have hfinish : ∀ type m1, m.Grows m1 → type.In m1.store →
        Works p may m1 (finish type) TypeId.In := by
      intro type m1 h1 htype
      refine .intro fun hm1 => ?_
      have hany : TypeId.any.In m1.store := hm1.store.basic_in (by decide)
      show Works p may m1 (if f.flags.has .async then _ else _) TypeId.In
      split
      · exact .onStore (works_specializedInstance hm1.builtins.coroutine
          (by simpa using ⟨hany, htype⟩))
      · exact .ret fun _ => htype
    have hnext : ∀ declared m1, m.Grows m1 → declared.In m1.store →
        Works p may m1 (next declared) TypeId.In := by
      intro declared m1 h1 hdeclared
      have hnone : m1.store.HasAll (([] : Solutions).map (·.2)) := hasAll_nil
      refine (Works.onStore (works_solve _ (harguments.mono h1.store) hnone)).bind
        fun solutions m2 h2 hsolutions => ?_
      have hdeclared' := hdeclared.mono h2.store
      split
      · exact (Works.ret fun _ => hdeclared').bind fun type m3 h3 htype =>
          hfinish type m3 ((h1.trans h2).trans h3) htype
      · exact (Works.onStore (works_substitute hsolutions hdeclared')).bind fun type m3 h3 htype =>
          hfinish type m3 ((h1.trans h2).trans h3) htype
    split
    · rename_i type htype
      have hdeclared := hm.store.functions detail f hf type (by simp [FunctionDetail.types, htype])
      exact (Works.ret fun _ => hdeclared).bind hnext
    · exact (works_askReturned h detail).bind hnext

/-- A call works. It may ask for what functions return, for the members of instances, and for
further calls with the same arguments. -/
theorem works_call {callee : TypeId} (hlower : Lower p may m 2)
    (hcalls : ∀ m', m.Grows m' → ∀ found, may (.call found arguments) m')
    (hcallee : callee.In m.store) (harguments : m.store.HasAll arguments) :
    Works p may m (call p callee arguments) TypeId.In := by
  refine .intro fun hm => .store ?_
  split
  · exact works_unknown
  · rename_i t hget
    have hshape := shape?_of_get? hget
    split
    · rename_i detail typeArguments literal ht
      rw [ht] at hshape
      have hdetail : detail.In m.store := hm.store.detail callee _ hshape
      split
      -- A class gives a value of it, and a value has its member for calls called.
      · split
        · exact works_unknown
        · split
          · exact .onStore (works_specializedInstance hdetail (hm.store.hasAll_parts hshape))
          · exact .onStore (works_instanceOf_in hdetail)
      · refine works_callMemberD (hlower m (.refl m) _ trivial rfl ?_) hcalls hcallee harguments
        simp [Query.rank, TypeStore.memberRank, hshape]
    · exact works_functionResult (hlower.allows (fun _ => trivial) (fun _ => rfl)
        fun _ _ => Nat.succ_pos 1) _ _ harguments
    · rename_i overloads ht
      rw [ht] at hshape
      split
      · rename_i chosen hchosen
        have hmem : chosen ∈ overloads := by
          rcases Option.or_eq_some_iff.1 hchosen with hfind | ⟨-, hlast⟩
          · exact List.mem_of_find?_eq_some hfind
          · exact List.mem_of_getLast? hlast
        exact works_askCall (hcalls m (.refl m) chosen) (hm.store.hasAll_parts hshape _ hmem)
          harguments
      · exact works_unknown
    · rename_i members ht
      rw [ht] at hshape
      refine (Works.mapM .mono fun part hmem m' hm' => ?_).bind fun types _ _ htypes =>
        .onStore (works_unionOf htypes)
      have hpart : part.In m.store := hm.store.hasAll_parts hshape _ hmem
      exact works_askCall (hcalls m' hm' part) (hpart.mono hm'.store)
        (harguments.mono hm'.store)
    · exact .ret fun hm => hm.store.basic_in (by decide)
    · exact works_unknown

/-- What a function of a class is bound to is there. -/
theorem works_receiver? (f : FunctionDetail) (hobject : object.In m.store) (throughValue : Bool) :
    Works p may m (receiver? f object throughValue) fun t s => ∀ id ∈ t, id.In s := by
  unfold receiver?
  split
  · refine .intro fun hm => .store ?_
    split
    · rename_i owner howner
      exact (Works.onStore (works_classType_in (hm.store.instanceClass?_in howner))).bind
        fun id _ _ hid => .ret fun _ => forall_mem_some hid
    · exact .ret fun _ => forall_mem_some hobject
  · split
    · exact .ret fun _ => forall_mem_some hobject
    · exact .ret fun _ => nofun

/-- A member of a class is bound to what it is taken from. -/
theorem works_bound (h : Allows may m Query.returned) (hmember : member.In m.store)
    (hobject : object.In m.store) (throughValue : Bool) :
    Works p may m (bound p member object throughValue) TypeId.In := by
  refine .intro fun hm => .get ?_
  split
  -- A property is called with the object, which fills its only parameter.
  · split
    · exact works_functionResult h _ _ hasAll_nil
    · exact .ret fun _ => hmember
  · split
    · rename_i detail _ hshape
      have hdetail : detail.In m.store := hm.store.detail member _ hshape
      split
      · exact .ret fun _ => hmember
      · rename_i f hf
        split
        · exact .ret fun _ => hmember
        · refine (works_receiver? f hobject throughValue).bind fun receiver m1 h1 hreceiver => ?_
          split
          -- The parameters that the object does not fill are those of the function.
          · refine .intro fun hm1 => .onStore (works_addValue ?_ (hdetail.mono h1.store))
            have hparameters := (hm.store.functions detail f hf).mono h1.store
            refine hasAll_append.2 ⟨hasAll_cons.2 ⟨hreceiver _ rfl, hasAll_nil⟩, fun id hid => ?_⟩
            simp only [Option.getD_some, List.map_map, List.mem_map, Function.comp_apply] at hid
            obtain ⟨parameter, hparameter, rfl⟩ := hid
            refine hparameters _ (List.mem_append_left _ (List.mem_map.2 ⟨parameter, ?_, rfl⟩))
            exact List.mem_of_mem_drop hparameter
          · exact .ret fun _ => hmember.mono h1.store
    · exact .ret fun _ => hmember

/-- A member is found through a class. -/
theorem works_classMember (h : Allows may m Query.returned) (hobject : object.In m.store)
    (detail : ClassId) (name : String) :
    Works p may m (classMember p object detail name) fun t s => ∀ id ∈ t, id.In s := by
  refine .intro fun hm => .store ?_
  have hbound : ∀ member throughValue, member.In m.store → Works p may m
      (do return some (← bound p member object throughValue)) fun t s => ∀ id ∈ t, id.In s := by
    intro member throughValue hmember
    exact (works_bound h hmember hobject throughValue).bind fun id _ _ hid =>
      .ret fun _ => forall_mem_some hid
  split
  · exact hbound _ _ (hm.store.member?_in ‹_›)
  · split
    · exact .ret fun _ => nofun
    · split
      · exact hbound _ _ (hm.store.member?_in ‹_›)
      · exact .ret fun _ => nofun

/-- Values come before every type that comes later. -/
theorem memberRank_le (s : TypeStore) (object : TypeId) :
    s.memberRank object ≤ object.index + 2 := by
  unfold TypeStore.memberRank
  split <;> omega

/-- Members of values come after what functions return. -/
theorem memberRank_pos (s : TypeStore) (object : TypeId) : 0 < s.memberRank object := by
  unfold TypeStore.memberRank
  split <;> omega

/-- A member of a value works. It may ask for what functions return and for members of parts. -/
theorem works_member {name : String} (hobject : object.In m.store)
    (hlower : Lower p may m (m.store.memberRank object)) :
    Works p may m (Calls.member p object name) fun t s => ∀ id ∈ t, id.In s := by
  have hreturned : Allows may m Query.returned :=
    hlower.allows (fun _ => trivial) (fun _ => rfl) fun _ _ => memberRank_pos m.store object
  refine .intro fun hm => .store ?_
  extract_lets ofObject
  have hofObject : m.store.memberRank object = object.index + 2 →
      Works p may m ofObject fun t s => ∀ id ∈ t, id.In s := by
    intro hrank
    refine (Works.onStore (works_instanceOf hm.builtins.object)).bind fun id m1 h1 hid => ?_
    refine works_askMember (hlower m1 h1 _ trivial rfl ?_) (in_of_get? hid)
    have hone : m1.store.memberRank id = 1 := by rw [TypeStore.memberRank, shape?_of_get? hid]
    show m1.store.memberRank id < _
    omega
  -- Parts were there before, so questions for their members rank lower.
  have hpart : ∀ part m1, m.Grows m1 → m.store.memberRank object = object.index + 2 →
      part.index < object.index → part.In m.store →
      Works p may m1 (ask (.member part name)) fun t s => ∀ id ∈ t, id.In s := by
    intro part m1 h1 hrank hlt hin
    refine works_askMember (hlower m1 h1 _ trivial rfl ?_) (hin.mono h1.store)
    have hle := memberRank_le m1.store part
    show m1.store.memberRank part < _
    omega
  split
  · exact .ret fun _ => nofun
  · rename_i t hget
    have hshape := shape?_of_get? hget
    split
    -- The members of a module are parts of its type.
    · rename_i members ht
      rw [ht] at hshape
      exact .ret fun hm id hid => hm.store.hasAll_parts hshape id (mem_values_of_get? hid)
    -- Members of classes and values are found in classes, and no further member is asked for.
    · split
      · exact works_classMember hreturned hobject _ _
      · split
        · rename_i found hfound
          exact (works_bound hreturned (hm.store.member?_in hfound) hobject true).bind
            fun id _ _ hid => .ret fun _ => forall_mem_some hid
        · exact .ret fun _ => nofun
    · rename_i detail scope scopedName ht
      rw [ht] at hshape
      have hrank : m.store.memberRank object = object.index + 2 := by
        rw [TypeStore.memberRank, hshape]
      -- The bound of a type variable was there before it.
      split
      · exact .ret fun _ => nofun
      · rename_i v hv
        split
        · rename_i type htype
          have hmem : type ∈ v.types := by simp [TypeVarDetail.types, htype]
          exact hpart type m (.refl m) hrank (hm.store.bounds object _ _ _ v hshape hv type hmem)
            (hm.store.typeVars _ v hv type hmem)
        · exact hofObject hrank
    · rename_i ht
      rw [ht] at hshape
      exact hofObject (by rw [TypeStore.memberRank, hshape])
    · rename_i members ht
      rw [ht] at hshape
      have hrank : m.store.memberRank object = object.index + 2 := by
        rw [TypeStore.memberRank, hshape]
      refine (Works.filterMapM .mono fun part hmem m1 h1 => hpart part m1 h1 hrank
        (hm.store.parts object _ hshape part hmem)
        (hm.store.hasAll_parts hshape part hmem)).bind fun found m1 h1 hfound => ?_
      split
      · exact .ret fun _ => nofun
      · exact (Works.onStore (works_unionOf hfound)).bind fun id _ _ hid =>
          .ret fun _ => forall_mem_some hid
    · exact .ret fun _ => forall_mem_some (hm.store.basic_in (by decide))
    · exact .ret fun _ => forall_mem_some (hm.store.basic_in (by decide))
    · exact .ret fun _ => nofun

/-! ## Returned types -/

/-- A returning statement returns a type. -/
theorem works_returnedBy (h : Free p may m) (statement : NodeId) :
    Works p may m (returnedBy p statement) TypeId.In := by
  unfold returnedBy
  split
  · exact works_typeOf (.of_all h fun _ => trivial) _
  · exact .ret fun hm => hm.store.basic_in (by decide)

/-- A yielding expression yields a type. -/
theorem works_yieldedBy (h : Free p may m) (expression : NodeId) :
    Works p may m (yieldedBy p expression) TypeId.In := by
  unfold yieldedBy
  split
  · exact works_typeOf (.of_all h fun _ => trivial) _
  · exact (works_typeOf (.of_all h fun _ => trivial) _).bind fun id _ _ hid => .intro fun hm =>
      .onStore (Values.works_iteratedAt _ hm.builtins)
  · exact .ret fun hm => hm.store.basic_in (by decide)

/-- The body of a function returns a type. -/
theorem works_bodyResult (h : Free p may m) (n body : NodeId) :
    Works p may m (bodyResult p n body) TypeId.In := by
  refine (Works.mapM .mono fun statement _ m' hm' => works_returnedBy (h.mono hm') statement).bind
    fun types m1 h1 htypes => ?_
  extract_lets returned
  have hreturned : ∀ {m2}, m1.Grows m2 → Memory.Sound p.builtins m2 → m2.store.HasAll returned := by
    intro m2 h2 hm2
    refine hasAll_append.2 ⟨HasAll.mono htypes h2.store, ?_⟩
    split
    · exact hasAll_cons.2 ⟨hm2.store.basic_in (by decide), hasAll_nil⟩
    · exact hasAll_nil
  split
  · refine (Works.mapM .mono fun expression _ m' hm' =>
      works_yieldedBy (h.mono (h1.trans hm')) expression).bind fun yields m2 h2 hyields => ?_
    refine (Works.onStore (works_unionOf hyields)).bind fun yielded m3 h3 hyielded => ?_
    extract_lets next
    have hnext : ∀ result m4, m3.Grows m4 → result.In m4.store →
        Works p may m4 (next result) TypeId.In := by
      intro result m4 h4 hresult
      refine .intro fun hm4 => .onStore (works_specializedInstance hm4.builtins.generator ?_)
      have hany : TypeId.any.In m4.store := hm4.store.basic_in (by decide)
      simpa using ⟨hyielded.mono h4.store, hany, hresult⟩
    split
    · exact (Works.ret fun hm3 => hm3.store.basic_in (by decide)).bind hnext
    · exact .intro fun hm3 =>
        (Works.onStore (works_unionOf (hreturned (h2.trans h3) hm3))).bind hnext
  · exact .intro fun hm1 => .onStore (works_unionOf (hreturned (.refl m1) hm1))

/-- A function definition returns a type by its body. -/
theorem works_definitionResult (h : Free p may m) (n : NodeId) :
    Works p may m (definitionResult p n) TypeId.In := by
  unfold definitionResult
  split
  · exact works_typeOf (.of_all h fun _ => trivial) _
  · exact works_bodyResult h n _
  · exact works_unknown

/-- A function without a given type returns one. It may ask anything if less energy is left. -/
theorem works_returned (hdeeper : Deeper p may m) (detail : FunctionId) :
    Works p may m (returned p detail) TypeId.In := by
  refine .intro fun hm => .get ?_
  split
  · rename_i type htype
    exact .ret fun hm => (hm.returnTypes _ (mem_of_lookup htype)).2
  · split
    · exact works_unknown
    · rename_i n hn
      obtain ⟨f, hf, -⟩ := Option.bind_eq_some_iff.1 hn
      have hdetail : detail.In m.store := (Array.getElem?_eq_some_iff.1 hf).1
      have hguarded : Works p may m
          (guarded returnSlot detail .incomplete (definitionResult p n)
            fun type m => { m with returnTypes := (detail, type) :: m.returnTypes })
          fun t s => t.In s ∧ detail.In s := by
        refine works_guarded lawful_returnSlot hdeeper
          (fun hm => ⟨hm.store.basic_in (by decide), hdetail⟩) (fun m' hstore hfree => ?_)
          fun type m' hm' _ htype => ⟨{ hm' with
            returnTypes := List.forall_mem_cons.2 ⟨⟨htype.2, htype.1⟩, hm'.returnTypes⟩ },
            { Memory.Grows.refl m' with }, htype⟩
        exact (works_definitionResult hfree n).weaken fun t m'' _ hgrows ht =>
          ⟨ht, FunctionId.In.mono (hstore ▸ hdetail) hgrows.store⟩
      exact hguarded.weaken fun _ _ _ _ h => h.1

end TypeProbe.Evaluation
