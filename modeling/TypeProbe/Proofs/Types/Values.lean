import TypeProbe.Proofs.Types.Works

/-!
# What the rules on types alone do

Unions, widening, substitution, the order of ancestors, and the rules on values work in the sense of
`TypeStore.Works`: given handles of the store they give handles of the store.
-/

namespace TypeProbe

namespace TypeStore

variable {s : TypeStore} {id : TypeId} {ids : List TypeId}

/-! ## Unions -/

/-- What a list holds with a further element at its end. -/
theorem mem_append_singleton {α : Type} {a b : α} {found : List α} (h : a ∈ found ++ [b]) :
    a ∈ found ∨ a = b := (List.mem_append.1 h).imp_right List.mem_singleton.1

/-- What a list holds that is gone through with a step that adds at most its element. -/
theorem mem_foldl_of_step {α : Type} {step : List α → α → List α}
    (hstep : ∀ found b, ∀ a ∈ step found b, a ∈ found ∨ a = b) {a : α} (as : List α)
    {found : List α} (h : a ∈ as.foldl step found) : a ∈ found ∨ a ∈ as := by
  induction as generalizing found with
  | nil => exact .inl h
  | cons b as ih =>
    rcases ih h with hfound | htail
    · rcases hstep found b a hfound with hold | rfl
      · exact .inl hold
      · exact .inr List.mem_cons_self
    · exact .inr (List.mem_cons_of_mem b htail)

/-- What is inserted where it is new was there or comes from what is inserted. -/
theorem mem_foldl_insertNew {α : Type} [BEq α] {a : α} (as : List α) {found : List α}
    (h : a ∈ as.foldl insertNew found) : a ∈ found ∨ a ∈ as := by
  refine mem_foldl_of_step (fun found b a ha => ?_) as h
  unfold insertNew at ha
  split at ha
  · exact .inl ha
  · exact mem_append_singleton ha

/-- The members of the union of types are there if the types are. -/
theorem Sound.hasAll_flatten (h : s.Sound) (hids : s.HasAll ids) : s.HasAll (s.flatten ids) := by
  intro t ht
  rcases mem_foldl_insertNew _ ht with hnil | hmem
  · cases hnil
  · obtain ⟨id, hid, ht⟩ := List.mem_flatMap.1 hmem
    exact h.hasAll_membersOf (hids id hid) t ht

/-- A union may be made of types that are there. -/
theorem works_unionOf (hids : s.HasAll ids) :
    s.Works (·.unionOf ids) TypeId.In := by
  refine .intro fun h => ?_
  have hflat := h.hasAll_flatten hids
  have hfound := lookUpAll_of_hasAll hids
  match hmembers : s.flatten ids with
  | [] =>
    have hnever : s.Works (fun s => (TypeId.never, s)) TypeId.In :=
      .ret fun h => h.basic_in (by decide)
    exact hnever.congr (by rw [unionOf, hmembers, hfound])
  | [id] =>
    have honly : s.Works (fun s => (id, s)) TypeId.In :=
      .ret fun _ => (hasAll_cons.1 (hmembers ▸ hflat)).1
    exact honly.congr (by rw [unionOf, hmembers, hfound])
  | first :: second :: members =>
    have hunion : s.Works (fun s => s.addValue (.union (first :: second :: members))) TypeId.In :=
      works_addValue (hmembers ▸ hflat) trivial
    exact hunion.congr (by rw [unionOf, hmembers, hfound])

/-! ## Widening and substitution -/

/-- Literal values may be forgotten. -/
theorem works_widenAt (fuel : Nat) (hid : id.In s) :
    s.Works (widenAt fuel id) TypeId.In := by
  induction fuel generalizing s id with
  | zero => exact .ret fun _ => hid
  | succ fuel ih =>
    refine .intro fun h => .get ?_
    split
    · rename_i detail _ _ hshape
      exact works_instanceOf_in (h.detail id _ hshape)
    · rename_i members hshape
      have hparts := h.hasAll_parts hshape
      refine (Works.mapM .mono fun t ht s' hs' => ih ((hparts t ht).mono hs')).bind
        fun widened s1 h1 hwidened => ?_
      split
      · exact .ret fun _ => hid.mono h1
      · exact works_unionOf hwidened
    · exact .ret fun _ => hid

/-- Literal values may be forgotten. -/
theorem works_widen (hid : id.In s) : s.Works (widen id) TypeId.In :=
  works_widenAt _ hid

/-- Types may be replaced with types that are there. -/
theorem works_substituteAt {solutions : Solutions} (fuel : Nat)
    (hsolutions : s.HasAll (solutions.map (·.2))) (hid : id.In s) :
    s.Works (substituteAt solutions fuel id) TypeId.In := by
  induction fuel generalizing s id with
  | zero => exact .ret fun _ => hid
  | succ fuel ih =>
    unfold substituteAt
    split
    · rename_i solution hsolution
      have hmem : solution ∈ solutions.map (·.2) := List.mem_map.2 ⟨_, mem_of_lookup hsolution, rfl⟩
      exact .ret fun _ => hsolutions solution hmem
    -- A type without a solution of its own has its parts replaced.
    · refine .intro fun h => .get ?_
      split
      · rename_i flags detail arguments _ hget
        have hshape := shape?_of_get? hget
        have hparts := h.hasAll_parts hshape
        refine (Works.mapM .mono fun t ht s' hs' =>
          ih (hsolutions.mono hs') ((hparts t ht).mono hs')).bind fun replaced s1 h1 hreplaced => ?_
        have hdetail := ClassId.In.mono (h.detail id _ hshape) h1
        split
        · exact .ret fun _ => hid.mono h1
        · split
          · exact works_specializedClass hdetail hreplaced
          · exact works_specializedInstance hdetail hreplaced
      · rename_i flags members hget
        have hparts := h.hasAll_parts (shape?_of_get? hget)
        refine (Works.mapM .mono fun t ht s' hs' =>
          ih (hsolutions.mono hs') ((hparts t ht).mono hs')).bind fun replaced s1 h1 hreplaced => ?_
        split
        · exact .ret fun _ => hid.mono h1
        · exact works_unionOf hreplaced
      · exact .ret fun _ => hid

/-- Types may be replaced with types that are there. -/
theorem works_substitute {solutions : Solutions} (hsolutions : s.HasAll (solutions.map (·.2)))
    (hid : id.In s) : s.Works (substitute solutions id) TypeId.In :=
  works_substituteAt _ hsolutions hid

/-! ## Ancestors -/

/-- What is left of a sequence was in it. -/
theorem mem_of_mem_dropFront {α κ : Type} [BEq κ] {key : α → κ} {k : κ} {a : α} {as : List α}
    (h : a ∈ Linearization.dropFront key k as) : a ∈ as := by
  unfold Linearization.dropFront at h
  split at h
  · exact h
  · split at h
    · exact List.mem_cons_of_mem _ h
    · exact h

/-- What is inserted where its key is new was there or comes from what is inserted. -/
theorem mem_foldl_insertNewKey {α κ : Type} [BEq κ] {key : α → κ} {a : α} (as : List α)
    {found : List α} (h : a ∈ as.foldl (Linearization.insertNew key) found) :
    a ∈ found ∨ a ∈ as := by
  refine mem_foldl_of_step (fun found b a ha => ?_) as h
  unfold Linearization.insertNew at ha
  split at ha
  · exact .inl ha
  · exact mem_append_singleton ha

/-- What a merge gives is its first part or comes from the sequences. -/
theorem mem_mergeAt {α κ : Type} [BEq κ] {key : α → κ} {a : α} (fuel : Nat) {merged : List α}
    {sequences : List (List α)} (h : a ∈ Linearization.mergeAt key fuel merged sequences) :
    a ∈ merged ∨ a ∈ sequences.flatten := by
  induction fuel generalizing merged sequences with
  | zero => exact .inl h
  | succ fuel ih =>
    have hrest : ∀ a ∈ (sequences.filter (!·.isEmpty)).flatten, a ∈ sequences.flatten := by
      intro a ha
      obtain ⟨l, hl, ha⟩ := List.mem_flatten.1 ha
      exact List.mem_flatten.2 ⟨l, (List.mem_filter.1 hl).1, ha⟩
    unfold Linearization.mergeAt at h
    generalize sequences.filter (!·.isEmpty) = rest at h hrest
    split at h
    · exact .inl h
    · split at h
      -- A head that is in no tail goes from the sequences to what is merged.
      · rename_i first hnext
        have hfirst : first ∈ rest.flatten := by
          obtain ⟨l, hl, hhead⟩ := List.mem_filterMap.1 (List.mem_of_find?_eq_some hnext)
          exact List.mem_flatten.2 ⟨l, hl, List.mem_of_head? hhead⟩
        rcases ih h with hmerged | hdropped
        · rcases mem_append_singleton hmerged with hold | rfl
          · exact .inl hold
          · exact .inr (hrest a hfirst)
        · obtain ⟨l, hl, ha⟩ := List.mem_flatten.1 hdropped
          obtain ⟨l', hl', rfl⟩ := List.mem_map.1 hl
          exact .inr (hrest a (List.mem_flatten.2 ⟨l', hl', mem_of_mem_dropFront ha⟩))
      -- Without such a head all that is left is put after what is merged.
      · rcases mem_foldl_insertNewKey _ h with hold | hnew
        · exact .inl hold
        · exact .inr (hrest a hnew)

/-- The ancestors of a class are there if its bases are. -/
theorem Sound.hasAll_linearize (h : s.Sound) (hid : id.In s) (hids : s.HasAll ids) :
    s.HasAll (s.linearize id ids) := by
  intro t ht
  rcases mem_mergeAt _ ht with hfirst | hrest
  · exact List.mem_singleton.1 hfirst ▸ hid
  · rw [List.flatten_append, List.mem_append] at hrest
    rcases hrest with hancestor | hbase
    · obtain ⟨l, hl, ht⟩ := List.mem_flatten.1 hancestor
      obtain ⟨base, hmem, rfl⟩ := List.mem_map.1 hl
      unfold ancestry at ht
      split at ht
      · rename_i c hc
        rcases List.mem_cons.1 ht with rfl | htail
        · exact hids t hmem
        · exact h.hasAll_classOf hc t (by simp [ClassDetail.types, List.mem_of_mem_tail htail])
      · exact List.mem_singleton.1 ht ▸ hids base hmem
    · exact hids t (by simpa using hbase)

end TypeStore

/-! ## Values -/

/-- The handles of what is known beforehand, as far as types are made of it, are handles of the
store. -/
structure Builtins.In (b : Builtins) (s : TypeStore) : Prop where
  object : b.object.In s
  metaclass : b.metaclass.In s
  int : b.int.In s
  float : b.float.In s
  complex : b.complex.In s
  text : b.text.In s
  bytes : b.bytes.In s
  bool : b.bool.In s
  list : b.list.In s
  dictionary : b.dictionary.In s
  set : b.set.In s
  tuple : b.tuple.In s
  slice : b.slice.In s
  ellipsis : b.ellipsis.In s
  property : b.property.In s
  baseException : b.baseException.In s
  coroutine : b.coroutine.In s
  generator : b.generator.In s
  modules : s.HasAll b.modules.values

/-- Handles stay handles. -/
theorem Builtins.In.mono {b : Builtins} {s s' : TypeStore} (hb : b.In s) (h : s.Grows s') :
    b.In s' where
  object := hb.object.mono h
  metaclass := hb.metaclass.mono h
  int := hb.int.mono h
  float := hb.float.mono h
  complex := hb.complex.mono h
  text := hb.text.mono h
  bytes := hb.bytes.mono h
  bool := hb.bool.mono h
  list := hb.list.mono h
  dictionary := hb.dictionary.mono h
  set := hb.set.mono h
  tuple := hb.tuple.mono h
  slice := hb.slice.mono h
  ellipsis := hb.ellipsis.mono h
  property := hb.property.mono h
  baseException := hb.baseException.mono h
  coroutine := hb.coroutine.mono h
  generator := hb.generator.mono h
  modules := hb.modules.mono h

namespace Values

open TypeStore

variable {b : Builtins} {s : TypeStore} {id : TypeId} {ids : List TypeId}

/-- That nothing is known is a type. -/
theorem works_unknown : s.Works (fun s => (TypeId.unknown, s)) TypeId.In :=
  .ret fun h => h.basic_in (by decide)

/-- A type at a place of a list is there, or the one of which nothing is known. -/
theorem getElemD_in (h : s.Sound) (hids : s.HasAll ids) (place : Nat) :
    (ids[place]?.getD .unknown).In s := by
  cases hget : ids[place]? with
  | none => exact h.basic_in (by decide)
  | some id => exact hids id (List.mem_of_getElem? hget)

/-- A type at a place of a list is there, or the one of which nothing is known. -/
theorem works_getElemD (hids : s.HasAll ids) (place : Nat) :
    s.Works (fun s => (ids[place]?.getD .unknown, s)) TypeId.In :=
  .ret fun h => getElemD_in h hids place

/-- The first type of a list is there, or the one of which nothing is known. -/
theorem works_headD (hids : s.HasAll ids) :
    s.Works (fun s => (ids.headD .unknown, s)) TypeId.In := by
  cases ids with
  | nil => exact works_unknown
  | cons id ids => exact .ret fun _ => (hasAll_cons.1 hids).1

/-- The union of types may be made. -/
theorem works_unionOrUnknown (hids : s.HasAll ids) :
    s.Works (unionOrUnknown ids) TypeId.In := by
  unfold unionOrUnknown
  split
  · exact .ret fun h => h.basic_in (by decide)
  · exact works_unionOf hids

/-- The items of a value have a type. -/
theorem works_itemsOf (hb : b.In s) : s.Works (itemsOf b id) TypeId.In := by
  refine .intro fun h => .get ?_
  have harguments : s.HasAll ((s.argumentsOf? id).getD []) := h.hasAll_arguments
  split
  · exact works_unknown
  · split
    · exact works_instanceOf_in hb.text
    · split
      · exact works_instanceOf_in hb.int
      · split
        · exact works_unionOrUnknown harguments
        · split
          · exact works_headD harguments
          · exact works_unknown

/-- The items of a value have a type. -/
theorem works_iteratedAt (fuel : Nat) (hb : b.In s) : s.Works (iteratedAt b fuel id) TypeId.In := by
  induction fuel generalizing s id with
  | zero => exact works_unknown
  | succ fuel ih =>
    refine .get ?_
    split
    · exact (Works.mapM .mono fun t _ s' hs' => ih (hb.mono hs')).bind
        fun types s1 _ htypes => works_unionOf htypes
    · exact works_itemsOf hb

/-- What is unpacked has a type. -/
theorem works_unpacked (hb : b.In s) (place : Nat) : s.Works (unpacked b id place) TypeId.In := by
  refine .intro fun h => .get ?_
  split
  · rename_i detail arguments _ hshape
    have hparts := h.hasAll_parts hshape
    split
    · exact works_getElemD hparts place
    · exact works_iteratedAt _ hb
  · exact works_unknown

/-- What is caught has a type. -/
theorem works_caughtAt (fuel : Nat) (hb : b.In s) : s.Works (caughtAt b fuel id) TypeId.In := by
  induction fuel generalizing s id with
  | zero => exact works_unknown
  | succ fuel ih =>
    refine .intro fun h => .get ?_
    split
    · exact works_unknown
    · rename_i t hget
      split
      · rename_i detail hdetail
        have hclass : s.classIdOf? id = some detail := by
          rw [classIdOf?, hget]
          split at hdetail
          · exact hdetail
          · cases hdetail
        exact works_instanceOf_in (h.classIdOf?_in hclass)
      · split
        · exact (Works.mapM .mono fun t _ s' hs' => ih (hb.mono hs')).bind
            fun types s1 _ htypes => works_unionOf htypes
        · exact works_unknown

/-- What comes out of an awaited value has a type. -/
theorem awaited_in (h : s.Sound) : (awaited b s id).In s := by
  unfold awaited
  split
  · exact getElemD_in h h.hasAll_arguments 2
  · exact h.basic_in (by decide)

/-- A number has a type. -/
theorem works_number (hb : b.In s) (n : NumberLiteral) : s.Works (number b n) TypeId.In := by
  have hcomplex := works_instanceOf_in hb.complex
  have hfloat := works_instanceOf_in hb.float
  cases himaginary : n.isImaginary with
  | true => exact hcomplex.congr (by rw [number, himaginary]; rfl)
  | false =>
    cases hvalue : n.value with
    | int value =>
      refine (works_literal hb.int (.int value)).congr ?_
      rw [number, himaginary, hvalue]
      rfl
    | float value => exact hfloat.congr (by rw [number, himaginary, hvalue]; rfl)

/-- A keyword that is a value has a type. -/
theorem works_constant (hb : b.In s) (keyword : Keyword) :
    s.Works (constant b keyword) TypeId.In := by
  have hbool := hb.bool
  cases keyword with
  | true => exact works_literal hbool _
  | false => exact works_literal hbool _
  | none => exact .ret fun h => h.basic_in (by decide)
  | debug => exact works_instanceOf_in hbool
  | _ => exact works_unknown

/-- An operation on numbers has a type. -/
theorem works_arithmetic (hb : b.In s) (op : Operator) (rank : Nat)
    (left right : Option LiteralValue) : s.Works (arithmetic b op rank left right) TypeId.In := by
  intro h
  show (arithmetic b op rank left right s).2.Sound ∧
    s.Grows (arithmetic b op rank left right s).2 ∧ (arithmetic b op rank left right s).1.In _
  have hint := hb.int
  have hfloat := hb.float
  have hcomplex := hb.complex
  unfold arithmetic
  split
  · dsimp only
    split
    · exact works_literal hint _ h
    · exact works_instanceOf_in (by split <;> assumption) h
  · split
    · exact works_unknown h
    · exact works_instanceOf_in (by split <;> assumption) h

end Values

namespace Calls

open TypeStore

/-- Type variables may be solved by types that are there. -/
theorem works_solve {s : TypeStore} (parameters : List Parameter) {arguments : List TypeId}
    {solutions : Solutions} (harguments : s.HasAll arguments)
    (hsolutions : s.HasAll (solutions.map (·.2))) :
    s.Works (solve parameters arguments solutions)
      fun solutions s' => s'.HasAll (solutions.map (·.2)) := by
  induction parameters generalizing s arguments solutions with
  | nil => exact .ret fun _ => hsolutions
  | cons parameter parameters ih =>
    cases arguments with
    | nil => exact .ret fun _ => hsolutions
    | cons argument arguments =>
      obtain ⟨hargument, hrest⟩ := hasAll_cons.1 harguments
      unfold solve
      split
      · exact .ret fun _ => hsolutions
      · refine .get ?_
        split
        · refine (works_widen hargument).bind fun type s1 h1 htype => ?_
          refine ih (hrest.mono h1) ?_
          rw [List.map_append, hasAll_append]
          exact ⟨hsolutions.mono h1, hasAll_cons.2 ⟨htype, hasAll_nil⟩⟩
        · exact ih hrest hsolutions

end Calls

end TypeProbe
