import TypeProbe.Proofs.Inference.Explained
import TypeProbe.Proofs.Scope.Unpacking

/-!
# What unpacked names receive

A name in a nested target has the type of the element at the place that is recorded for it, counted
from the front at every level (`Arena.element?`). At run time a starred target takes as many
elements as the others leave, so that what stands behind it counts from the end
(`Arena.boundPath?`). So the type of a name is that of the element that it is bound to if no starred
target before it takes other than one element (`Checker.unpacked_name`).
-/

namespace TypeProbe

namespace Arena

/-- Whether an entry of a target or a display is starred. -/
def isStarred (a : Arena) (n : NodeId) : Bool := a.kind? n == some .unpack

/-- The entries of a target that is unpacked. -/
def targetEntries? (a : Arena) (target : NodeId) : Option (List NodeId) :=
  match a.form? target with
  | some (.tuple entries _) | some (.list entries) => some entries
  | _ => none

/-- The items of the display of a tuple. -/
def tupleItems? (a : Arena) (n : NodeId) : Option (List NodeId) :=
  match a.form? n with
  | some (.tuple items _) => some items
  | _ => none

/-- The element at the end of a way through nested displays of tuples, each step by its place. -/
def element? (a : Arena) : (value : NodeId) → (path : List Nat) → Option NodeId
  | value, [] => some value
  | value, place :: path => do
    let items ← a.tupleItems? value
    let item ← items[place]?
    a.element? item path

/-- Whether so many elements can be unpacked into the entries of a target: as many as there are
entries, where a starred one takes any number. -/
def takesCount (a : Arena) (entries : List NodeId) (count : Nat) : Bool :=
  match entries.countP a.isStarred with
  | 0 => count == entries.length
  | 1 => entries.length ≤ count + 1
  | _ => false

/-- The place of the element, among so many, that is bound to the entry at a place: places behind a
starred entry count from the end. -/
def boundPlace (a : Arena) (entries : List NodeId) (count place : Nat) : Nat :=
  if (entries.take place).any a.isStarred then place + count - entries.length else place

/-- The way through nested displays of tuples without starred items to the element that is bound to
what is at the end of a way through a target. -/
def boundPath? (a : Arena) : (target value : NodeId) → (path : List Nat) → Option (List Nat)
  | _, _, [] => some []
  | target, value, place :: path => do
    let entries ← a.targetEntries? target
    let items ← a.tupleItems? value
    if !a.takesCount entries items.length || items.any a.isStarred then none
    let entry ← entries[place]?
    let item ← items[a.boundPlace entries items.length place]?
    return a.boundPlace entries items.length place :: (← a.boundPath? entry item path)

/-- A way through nested displays of tuples leads beyond the items of one of them. -/
inductive Beyond (a : Arena) : (value : NodeId) → (path : List Nat) → Prop
  | here {value : NodeId} {items : List NodeId} {place : Nat} {path : List Nat}
    (hitems : a.tupleItems? value = some items) (hplace : items.length ≤ place) :
    Beyond a value (place :: path)
  | item {value item : NodeId} {items : List NodeId} {place : Nat} {path : List Nat}
    (hitems : a.tupleItems? value = some items) (hitem : items[place]? = some item)
    (h : Beyond a item path) : Beyond a value (place :: path)

/-- On a way through a target no starred entry stands before the next one, or it takes one
element. -/
inductive Unshifted (a : Arena) : (target value : NodeId) → (path : List Nat) → Prop
  | done {target value : NodeId} : Unshifted a target value []
  | step {target value : NodeId} {entries items : List NodeId} {place : Nat} {path : List Nat}
    (hentries : a.targetEntries? target = some entries) (hitems : a.tupleItems? value = some items)
    (hplace : (entries.take place).any a.isStarred = false ∨ items.length = entries.length)
    (hrest : ∀ entry item, entries[place]? = some entry → items[place]? = some item →
      Unshifted a entry item path) : Unshifted a target value (place :: path)

section Ways

variable {a : Arena} {target value : NodeId} {place : Nat} {path way : List Nat}

/-- One step of the way to the element that is bound to what is at the end of a way. -/
theorem exists_of_boundPath?_cons (h : a.boundPath? target value (place :: path) = some way) :
    ∃ entries items entry item rest, a.targetEntries? target = some entries ∧
      a.tupleItems? value = some items ∧ entries[place]? = some entry ∧
      items[a.boundPlace entries items.length place]? = some item ∧
      a.boundPath? entry item path = some rest ∧
      way = a.boundPlace entries items.length place :: rest := by
  obtain ⟨entries, hentries, h⟩ := Option.bind_eq_some_iff.1 h
  obtain ⟨items, hitems, h⟩ := Option.bind_eq_some_iff.1 h
  dsimp only at h
  split at h
  · cases h
  · obtain ⟨entry, hentry, h⟩ := Option.bind_eq_some_iff.1 h
    obtain ⟨item, hitem, h⟩ := Option.bind_eq_some_iff.1 h
    obtain ⟨rest, hrest, h⟩ := Option.bind_eq_some_iff.1 h
    cases h
    exact ⟨entries, items, entry, item, rest, hentries, hitems, hentry, hitem, hrest, rfl⟩

/-- The way to the element that is bound leads to an element. -/
theorem exists_element?_of_boundPath? (h : a.boundPath? target value path = some way) :
    ∃ element, a.element? value way = some element := by
  induction path generalizing target value way with
  | nil =>
    cases h
    exact ⟨value, rfl⟩
  | cons place path ih =>
    obtain ⟨entries, items, entry, item, rest, -, hitems, -, hitem, hrest, rfl⟩ :=
      exists_of_boundPath?_cons h
    obtain ⟨element, helement⟩ := ih hrest
    refine ⟨element, ?_⟩
    rw [element?, hitems, Option.bind_eq_bind, Option.bind_some, hitem]
    exact helement

/-- Where no starred entry shifts places, the way to the element that is bound is the same. -/
theorem Unshifted.eq_of_boundPath? (hunshifted : a.Unshifted target value path)
    (h : a.boundPath? target value path = some way) : way = path := by
  induction hunshifted generalizing way with
  | done =>
    cases h
    rfl
  | @step target value entries items place path hentries hitems hplace _ ih =>
    obtain ⟨entries', items', entry, item, rest, hentries', hitems', hentry, hitem, hrest, rfl⟩ :=
      exists_of_boundPath?_cons h
    obtain rfl := Option.some.inj (hentries.symm.trans hentries')
    obtain rfl := Option.some.inj (hitems.symm.trans hitems')
    have hsame : a.boundPlace entries items.length place = place := by
      unfold boundPlace
      split
      · rename_i hstarred
        rcases hplace with h | h
        · cases hstarred.symm.trans h
        · omega
      · rfl
    rw [hsame] at hitem ⊢
    rw [ih entry item hentry hitem hrest]

end Ways

/-- The items of the display of a tuple are its children. -/
theorem mem_children_of_tupleItems? {a : Arena} {value item : NodeId} {items : List NodeId}
    {place : Nat} (h : a.tupleItems? value = some items) (hitem : items[place]? = some item) :
    item ∈ a.children value := by
  unfold tupleItems? at h
  split at h
  · cases h
    exact mem_children_of_form? ‹_› (List.mem_of_getElem? hitem)
  · cases h

/-- The element at the end of a way is found below the value. -/
theorem reaches_of_element? {a : Arena} {value element : NodeId} {path : List Nat}
    (h : a.element? value path = some element) : a.Reaches value element := by
  induction path generalizing value with
  | nil =>
    cases h
    exact .refl
  | cons place path ih =>
    obtain ⟨items, hitems, h⟩ := Option.bind_eq_some_iff.1 h
    obtain ⟨item, hitem, h⟩ := Option.bind_eq_some_iff.1 h
    exact .head (mem_children_of_tupleItems? hitems hitem) (ih h)

/-- At the end of a way through a target stands a name. -/
theorem TargetAt.exists_name {a : Arena} {target n : NodeId} {path : List Nat}
    (h : a.TargetAt target path n) : ∃ token value, a.form? n = some (.name token value) := by
  induction h with
  | name hform => exact ⟨_, _, hform⟩
  | tuple _ _ _ ih => exact ih
  | list _ _ _ ih => exact ih

/-- A name at the end of a way through a target is part of a tuple or a list. -/
theorem TargetAt.parent? {a : Arena} {root target n : NodeId} {place : Nat} {path : List Nat}
    (ha : a.Rooted root) (h : a.TargetAt target (place :: path) n) :
    ∃ parent, a.parent? n = some parent ∧ (a.targetEntries? parent).isSome := by
  generalize hway : place :: path = way at h
  induction h generalizing place path with
  | name => cases hway
  | @tuple target entry n entries enclosed i rest hform hentry h ih =>
    cases rest with
    | nil =>
      cases h
      refine ⟨target, ha.parent?_of_form? hform (List.mem_of_getElem? hentry), ?_⟩
      rw [targetEntries?, hform]
      rfl
    | cons => exact ih rfl
  | @list target entry n entries i rest hform hentry h ih =>
    cases rest with
    | nil =>
      cases h
      refine ⟨target, ha.parent?_of_form? hform (List.mem_of_getElem? hentry), ?_⟩
      rw [targetEntries?, hform]
      rfl
    | cons => exact ih rfl

end Arena

/-- The display of a tuple has a value. -/
theorem Program.hasValue_of_tupleItems? {p : Program} {value : NodeId} {items : List NodeId}
    (h : p.arena.tupleItems? value = some items) : p.hasValue value = true := by
  unfold Arena.tupleItems? at h
  unfold hasValue
  split at h
  · rw [‹p.arena.form? value = _›]
    rfl
  · cases h

open TypeStore

namespace Memory

variable {p : Program} {cut : Query → Prop} {m : Memory} {value e : NodeId} {path : List Nat}
  {place : Nat} {whole part t : TypeId} {items : List NodeId}

/-- Nothing is known of what is unpacked from what is unknown. -/
theorem unpacked_of_isUnknown {s : TypeStore} {b : Builtins} (h : s.isUnknown whole = true) :
    (Values.unpacked b whole place s).1 = .unknown := by
  unfold isUnknown at h
  unfold Values.unpacked
  rw [get_bind_apply]
  cases hshape : s.shape? whole with
  | none => rfl
  | some shape =>
    rw [hshape] at h
    cases shape with
    | unknown incomplete => rfl
    | _ => cases h

/-- What is unpacked from the type of a display of a tuple is what the item at that place is taken
to have, and nothing is known of it if there is none or the display has been cut off. -/
theorem Takes.unpacked (hm : m.Explained p cut) (hwhole : m.Takes p cut value whole)
    (hitems : p.arena.tupleItems? value = some items)
    (hmade : m.store.Made [whole] (Values.unpacked p.builtins whole place) part) :
    m.store.isUnknown part = true ∧ (items[place]? = none ∨ cut (.node value)) ∨
      ∃ item, items[place]? = some item ∧ m.Takes p cut item part := by
  obtain ⟨s, -, hids, rfl, hwithin⟩ := hmade
  have hgrown : s.Within (Values.unpacked p.builtins whole place s).2 :=
    (keeping_unpacked _ _ _ s).get?
  have hsame := (hgrown.trans hwithin).get?_eq (hasAll_cons.1 hids).1
  rcases hwhole.explains hm with hexplained | ⟨hunknown, -, hcut⟩
  · unfold Arena.tupleItems? at hitems
    unfold Explains at hexplained
    split at hitems
    · rename_i hform
      cases hitems
      rw [hform] at hexplained
      obtain ⟨types, htypes, hnominal⟩ := hexplained
      have hnominal : s.IsNominal whole p.builtins.tuple (some types) none :=
        hsame.symm.trans hnominal.isNominal_specialized
      have hpart : (Values.unpacked p.builtins whole place s).1 = types[place]?.getD .unknown := by
        unfold Values.unpacked
        rw [get_bind_apply, shape?_of_get? hnominal]
        dsimp only
        rw [if_pos rfl]
        rfl
      rw [hpart]
      cases hplace : items[place]? with
      | none =>
        have hlength := htypes.length_eq ▸ List.getElem?_eq_none_iff.1 hplace
        rw [List.getElem?_eq_none hlength]
        exact .inl ⟨Evaluation.isUnknown_unknown hm.toRegular, .inl rfl⟩
      | some item =>
        obtain ⟨hlt, rfl⟩ := List.getElem?_eq_some_iff.1 hplace
        have hlt' : place < types.length := htypes.length_eq ▸ hlt
        rw [List.getElem?_eq_getElem hlt']
        exact .inr ⟨_, rfl, htypes.get hlt hlt'⟩
    · cases hitems
  · have hunknown' : s.isUnknown whole = true := by
      rwa [isUnknown, TypeStore.shape?, ← hsame]
    rw [unpacked_of_isUnknown hunknown']
    refine .inl ⟨Evaluation.isUnknown_unknown hm.toRegular, .inr (hcut ?_)⟩
    exact Program.hasValue_of_tupleItems? hitems

/-- Nothing is known of what is taken out of what is unknown. -/
theorem Unpacks.isUnknown (hm : m.Regular p) (h : m.Unpacks p path whole t)
    (hwhole : m.store.isUnknown whole = true) : m.store.isUnknown t = true := by
  induction path generalizing whole with
  | nil => exact h ▸ hwhole
  | cons place path ih =>
    obtain ⟨part, ⟨s, -, hids, rfl, hwithin⟩, hrest⟩ := h
    refine ih hrest ?_
    have hgrown : s.Within (Values.unpacked p.builtins whole place s).2 :=
      (keeping_unpacked _ _ _ s).get?
    have hunknown : s.isUnknown whole = true := by
      rwa [TypeStore.isUnknown, TypeStore.shape?,
        ← (hgrown.trans hwithin).get?_eq (hasAll_cons.1 hids).1]
    rw [unpacked_of_isUnknown hunknown]
    exact Evaluation.isUnknown_unknown hm

/-- What is taken out of the type of a display is what the element at the end of the way is taken
to have, unless a display on the way has been cut off. -/
theorem Takes.element (hm : m.Explained p cut) (hwhole : m.Takes p cut value whole)
    (he : p.arena.element? value path = some e) (h : m.Unpacks p path whole t) :
    m.Takes p cut e t ∨ m.store.isUnknown t = true ∧ p.arena.CutAround cut value e := by
  induction path generalizing value whole with
  | nil =>
    cases he
    exact .inl (h ▸ hwhole)
  | cons place path ih =>
    have hbelow := Arena.reaches_of_element? he
    obtain ⟨items, hitems, he⟩ := Option.bind_eq_some_iff.1 he
    obtain ⟨item, hitem, he⟩ := Option.bind_eq_some_iff.1 he
    obtain ⟨part, hmade, hrest⟩ := h
    rcases hwhole.unpacked hm hitems hmade with ⟨hunknown, hnone | hcut⟩ | ⟨item', hitem', hpart⟩
    · cases hnone.symm.trans hitem
    · exact .inr ⟨hrest.isUnknown hm.toRegular hunknown, value, .refl, hbelow, hcut⟩
    · obtain rfl := Option.some.inj (hitem.symm.trans hitem')
      exact (ih hpart he hrest).imp_right fun ⟨hunknown, hcut⟩ =>
        ⟨hunknown, hcut.head (.single (Arena.mem_children_of_tupleItems? hitems hitem))⟩

/-- Nothing is known of what is taken out of the type of a display beyond its items. -/
theorem Takes.isUnknown_of_beyond (hm : m.Explained p cut) (hwhole : m.Takes p cut value whole)
    (hbeyond : p.arena.Beyond value path) (h : m.Unpacks p path whole t) :
    m.store.isUnknown t = true := by
  induction hbeyond generalizing whole with
  | @here value items place path hitems hplace =>
    obtain ⟨part, hmade, hrest⟩ := h
    rcases hwhole.unpacked hm hitems hmade with ⟨hunknown, -⟩ | ⟨item, hitem, -⟩
    · exact hrest.isUnknown hm.toRegular hunknown
    · rw [List.getElem?_eq_none hplace] at hitem
      cases hitem
  | @item value item items place path hitems hitem _ ih =>
    obtain ⟨part, hmade, hrest⟩ := h
    rcases hwhole.unpacked hm hitems hmade with ⟨hunknown, -⟩ | ⟨item', hitem', hpart⟩
    · exact hrest.isUnknown hm.toRegular hunknown
    · obtain rfl := Option.some.inj (hitem.symm.trans hitem')
      exact ih hpart hrest

end Memory

/-! ## Checkers that are asked about what is declared -/

/-- A memory in which all types of nodes are explained, and those of declarations received. -/
structure Memory.Recorded (p : Program) (cut : Query → Prop) (m : Memory) : Prop
    extends m.Explained p cut where
  /-- The types of declarations are received by known ones. -/
  receives : ∀ n t, (n, t) ∈ m.declarationTypes →
    ∃ d, p.bindings.Knows d ∧ d.node = n ∧ m.Receives p cut d t

namespace Checker

variable {name text : String} {asked : List Query.State} {cut : Query → Prop} {c c' : Checker}

/-- The checkers for a file, with the questions that they have answered before, each with the memory
that it was asked of. These are about what was there and about declarations of the file. -/
inductive Interviewed (file : SourceFile) : List Query.State → Checker → Prop
  | start : Interviewed file [] file.checker
  | answered {asked : List Query.State} {c c' : Checker} {q : Query} {a : q.Answer}
    (h : Interviewed file asked c) (hknown : q.Known c.program) (hq : q.In c.store)
    (ha : c.ask? q = some (a, c')) : Interviewed file ((q, c.memory) :: asked) c'

/-- Interviewed checkers have been asked about what is there. -/
theorem Interviewed.traced {file : SourceFile} (h : Interviewed file asked c) :
    Traced file asked c := by
  induction h with
  | start => exact .start
  | answered _ _ hq ha ih => exact .answered ih hq ha

/-- The types that an interviewed checker keeps of declarations are received. -/
theorem Interviewed.recorded (h : Interviewed (SourceFile.ofText name text) asked c)
    (hcut : ∀ q, Query.WasCutOff c.program asked q → cut q) :
    c.memory.Recorded c.program cut := by
  refine ⟨h.traced.explained hcut, ?_⟩
  -- Over the answered questions; before them nothing is kept of declarations.
  induction h with
  | start =>
    obtain ⟨b, s, -, hstart⟩ := checker_eq (SourceFile.ofText name text)
    rw [hstart]
    exact nofun
  | @answered asked c c' q a hc hknown hq ha ih =>
    obtain ⟨-, hprogram⟩ := ask?_eq_some ha
    rw [hprogram] at hcut ⊢
    have hreached := hc.traced.reached
    obtain ⟨hadvances, -⟩ := hreached.tells_of_foreknows hreached.regular.foreknows hq ha
      fun r hbarred => hcut r ⟨_, List.mem_cons_self, hbarred⟩
    intro n t hn
    rcases hadvances.receives n t hn with hold | ⟨d, hd, hnode, hreceives⟩
    · obtain ⟨d, hd, hnode, hreceives⟩ := ih (fun r h => hcut r (h.cons _)) n t hold
      exact ⟨d, hd, hnode, hreceives.mono hadvances.toRetains⟩
    · exact ⟨d, hknown.of_counts d hd, hnode, hreceives⟩

end Checker

/-- A name that is no title labels nothing either. -/
theorem Program.isLabel_of_not_isTitle {p : Program} {n : NodeId} (h : p.isTitle n = false) :
    p.isLabel n = false := by
  unfold isTitle at h
  unfold isLabel
  cases hparent : p.arena.parent? n with
  | none => rfl
  | some parent =>
    rw [hparent] at h
    dsimp only [Option.bind_some] at h ⊢
    cases hform : p.arena.form? parent with
    | none => rfl
    | some form =>
      rw [hform] at h
      cases form with
      | argument => exact h
      | moduleName | importAs | importFromAs => cases h
      | _ => rfl

/-- What a name stands for is known. -/
theorem Program.knows_of_standsFor? {p : Program} {n : NodeId} {value : String} {d : Declaration}
    (h : p.standsFor? n value = some d) : p.bindings.Knows d := by
  unfold standsFor? at h
  rcases Option.or_eq_some_iff.1 h with hdeclared | ⟨-, hfound⟩
  · exact Bindings.knows_of_declaration? hdeclared
  · obtain ⟨⟨found, ds⟩, hlookup, hlatest⟩ := Option.bind_eq_some_iff.1 hfound
    obtain ⟨-, hlatest⟩ := Option.ite_none_right_eq_some.1 hlatest
    exact Bindings.knows_of_lookup? hlookup
      (List.mem_filter.1 (Evaluation.mem_of_latest? hlatest)).1

namespace Checker

variable {name text : String} {asked : List Query.State} {cut : Query → Prop} {c c' : Checker}
  {n source : NodeId} {token : Token} {value : String} {d : Declaration} {answer : Option TypeId}

/-- The program of a checker for a file has the tree of the text and its bindings. -/
theorem Reached.rooted (h : Reached (SourceFile.ofText name text) c) :
    c.program.arena.Rooted (ParsedText.ofText text).root ∧
      c.program.bindings = Bindings.ofTree c.program.arena (ParsedText.ofText text).root := by
  rw [h.program_eq]
  exact ⟨ParsedText.rooted_ofText text, rfl⟩

/-- A name that stands for a variable has the type that is taken out of its value, unless the
declaration has been cut off. -/
theorem Interviewed.receives (h : Interviewed (SourceFile.ofText name text) asked c)
    (hform : c.program.arena.form? n = some (.name token value))
    (htitle : c.program.isTitle n = false) (hd : c.program.standsFor? n value = some d)
    (hkind : d.kind = .variable) (hhint : d.hint = none) (hsource : d.source = some source)
    (hvalue : c.program.hasValue source = true) (ht : c.typeOf? n = some (answer, c'))
    (hm : c'.memory.Recorded c.program cut) :
    ∃ t, answer = some t ∧ ((∃ whole, c'.memory.Takes c.program cut source whole ∧
      c'.memory.Unpacks c.program d.path whole t) ∨
      c'.store.isUnknown t = true ∧ cut (.declaration d)) := by
  have hgiven : c.program.hasValue n = true → answer.isSome := given_of_ask? ht
  obtain ⟨t, rfl⟩ := Option.isSome_iff_exists.1 (hgiven (by
    rw [Program.hasValue, hform]
    simp [Program.isLabel_of_not_isTitle htitle]))
  refine ⟨t, rfl, ?_⟩
  have hexplained := hm.explains n t (h.traced.reached.lookup_of_typeOf? ht)
  unfold Memory.Explains at hexplained
  rw [hform] at hexplained
  rcases hexplained htitle d hd hkind with hgiven | ⟨rfl, hcut⟩
  · obtain ⟨d', hknown, hnode, hreceives⟩ := hm.receives d.node t hgiven
    -- No two declarations are made by one node.
    obtain ⟨hrooted, hbindings⟩ := h.traced.reached.rooted
    have hstands := Program.knows_of_standsFor? hd
    rw [hbindings] at hknown hstands
    have hsame := Bindings.declaration?_of_knows hrooted hknown
    rw [hnode, Bindings.declaration?_of_knows hrooted hstands] at hsame
    obtain rfl := Option.some.inj hsame
    exact .inl (hreceives hkind hhint source hsource hvalue)
  · exact .inr ⟨Evaluation.isUnknown_incomplete hm.toRegular, hcut⟩

/-- A name has the type that a checker keeps of an element of its value, or nothing is known of it:
the element has no value, or the declaration of the name, the element, or what is around the element
in the value has been cut off. -/
def HasElementType (c : Checker) (cut : Query → Prop) (n value element : NodeId) (t : TypeId) :
    Prop :=
  c.typeOf? element = some (some t, c) ∨ c.store.isUnknown t = true ∧
    (c.program.hasValue element = false ∨
      (∃ d, c.program.bindings.declaration? n = some d ∧ cut (.declaration d)) ∨
      c.program.arena.CutAround cut value element)

/-- The type that is taken out of a value along the way to an element is the one that is kept of the
element, unless something on the way has been cut off. -/
theorem hasElementType_of_unpacks {element : NodeId} {path : List Nat} {whole t : TypeId}
    (hm : c.memory.Explained c.program cut) (hwhole : c.memory.Takes c.program cut source whole)
    (hunpacks : c.memory.Unpacks c.program path whole t)
    (helement : c.program.arena.element? source path = some element) :
    c.HasElementType cut n source element t := by
  rcases hwhole.element hm helement hunpacks with
    (hkept | ⟨rfl, hcut⟩ | ⟨hvalue, rfl⟩) | ⟨hunknown, hcut⟩
  · refine .inl ?_
    rw [typeOf?, ask?, Query.answer_node_of_kept hkept]
    rfl
  · exact .inr ⟨Evaluation.isUnknown_incomplete hm.toRegular,
      .inr (.inr ⟨element, Arena.reaches_of_element? helement, .refl, hcut⟩)⟩
  · exact .inr ⟨Evaluation.isUnknown_unknown hm.toRegular, .inl hvalue⟩
  · exact .inr ⟨hunknown, .inr (.inr hcut)⟩

/-- Whatever a checker for a file has been asked before about its nodes and declarations: a name in a
tuple or list to which an assignment unpacks the display of a tuple has the type of the element at
the place that is recorded for it, if there is one. Nothing is known of it if there is none, or if
the declaration of the name, the element or a display around it has been cut off. At run time the
name is bound to this element if on the way to it no starred target comes first that takes other
than one element. -/
theorem unpacked_name (h : Interviewed (SourceFile.ofText name text) asked c)
    {assignment target right place : NodeId} {path : List Nat}
    (hreach : c.program.arena.Reaches (ParsedText.ofText text).root assignment)
    (hassign : c.program.arena.form? assignment = some (.assignment target right))
    (htarget : c.program.arena.TargetAt target (place :: path) n)
    (hitems : (c.program.arena.tupleItems?
      (Binder.assignedValue c.program.arena c.program.arena.size right)).isSome)
    (ht : c.typeOf? n = some (answer, c')) :
    let value := Binder.assignedValue c.program.arena c.program.arena.size right
    let cut := Query.WasCutOff c.program ((.node n, c.memory) :: asked)
    ∃ t, answer = some t ∧
      (∀ element, c.program.arena.element? value (place :: path) = some element →
        c'.HasElementType cut n value element t) ∧
      (c.program.arena.Beyond value (place :: path) → c'.store.isUnknown t = true) ∧
      ∀ way, c.program.arena.boundPath? target value (place :: path) = some way →
        ∃ element, c.program.arena.element? value way = some element ∧
          (c.program.arena.Unshifted target value (place :: path) →
            c'.HasElementType cut n value element t) := by
  intro value cut
  obtain ⟨hrooted, hbindings⟩ := h.traced.reached.rooted
  have hd := Bindings.declaration?_of_targetAt hrooted hreach hassign htarget
  rw [← hbindings] at hd
  obtain ⟨token, spelling, hform⟩ := htarget.exists_name
  have hstands : ∃ d, c.program.bindings.declaration? n = some d ∧ d.kind = .variable ∧
      d.hint = none ∧ d.source = some value ∧ d.path = place :: path := ⟨_, hd, rfl, rfl, rfl, rfl⟩
  obtain ⟨d, hdeclared, hkind, hhint, hsource, hpath⟩ := hstands
  have htitle : c.program.isTitle n = false := by
    obtain ⟨parent, hparent, hentries⟩ := htarget.parent? hrooted
    unfold Arena.targetEntries? at hentries
    rw [Program.isTitle, hparent, Option.bind_some]
    split at hentries <;> simp_all
  obtain ⟨items, hitems⟩ := Option.isSome_iff_exists.1 hitems
  obtain ⟨-, hprogram⟩ := ask?_eq_some ht
  have hm : c'.memory.Recorded c.program cut := by
    have hrecorded := (h.answered (q := .node n) trivial trivial ht).recorded fun _ h => h
    rwa [hprogram] at hrecorded
  obtain ⟨t, rfl, hreceived⟩ := h.receives hform htitle (Option.or_eq_some_iff.2 (.inl hdeclared))
    hkind hhint hsource (Program.hasValue_of_tupleItems? hitems) ht hm
  rw [hpath] at hreceived
  have helement : ∀ element, c.program.arena.element? value (place :: path) = some element →
      c'.HasElementType cut n value element t := by
    intro element helement
    rw [← hprogram] at hm hdeclared helement hreceived
    rcases hreceived with ⟨whole, hwhole, hunpacks⟩ | ⟨hunknown, hcut⟩
    · exact hasElementType_of_unpacks hm.toExplained hwhole hunpacks helement
    · exact .inr ⟨hunknown, .inr (.inl ⟨d, hdeclared, hcut⟩)⟩
  refine ⟨t, rfl, helement, fun hbeyond => ?_, fun way hway => ?_⟩
  · rcases hreceived with ⟨whole, hwhole, hunpacks⟩ | ⟨hunknown, -⟩
    · exact hwhole.isUnknown_of_beyond hm.toExplained hbeyond hunpacks
    · exact hunknown
  · obtain ⟨element, hbound⟩ := Arena.exists_element?_of_boundPath? hway
    exact ⟨element, hbound, fun hunshifted =>
      helement element (hunshifted.eq_of_boundPath? hway ▸ hbound)⟩

/-- Behind a starred name that takes two elements a name has the type of the element before the one
that it is bound to: the last of four numbers is bound to it, and it has the type of the third. -/
theorem unpacked_name_afterStar :
    let c := (SourceFile.ofText "a.py" "a, *b, c = 1, 2, 3, 4\n").checker
    ∃ t c' d, c.typeOf? 3 = some (some t, c') ∧
      c'.store.instance? t = some (d, some (.int 3)) ∧
      c.program.arena.boundPath? 4 9 [2] = some [3] ∧ c.program.arena.element? 9 [3] = some 8 ∧
      c.program.arena.element? 9 [2] = some 7 ∧ c'.typeOf? 7 = some (some t, c') := by
  intro c
  obtain ⟨hassign, htuple, hname, hvalue, hbound, hlast, hthird, hitems⟩ :
      c.program.arena.form? 10 = some (.assignment 4 9) ∧
      c.program.arena.form? 4 = some (.tuple [0, 2, 3] false) ∧
      c.program.arena.form? 3 = some (.name ⟨⟨7, 1⟩, .identifier "c"⟩ "c") ∧
      Binder.assignedValue c.program.arena c.program.arena.size 9 = 9 ∧
      c.program.arena.boundPath? 4 9 [2] = some [3] ∧ c.program.arena.element? 9 [3] = some 8 ∧
      c.program.arena.element? 9 [2] = some 7 ∧ (c.program.arena.tupleItems? 9).isSome := by
    decide +kernel
  have hreach : c.program.arena.Reaches
      (ParsedText.ofText "a, *b, c = 1, 2, 3, 4\n").root 10 := by
    have hroot : (ParsedText.ofText "a, *b, c = 1, 2, 3, 4\n").root = 12 ∧
        11 ∈ c.program.arena.children 12 ∧ 10 ∈ c.program.arena.children 11 := by decide +kernel
    rw [hroot.1]
    exact .head hroot.2.1 (.single hroot.2.2)
  have hrun : (c.askWithin? 4 (.node 3)).map (fun r =>
      (r.1.bind r.2.store.instance?).bind (·.2)) = some (some (.int 3)) := by decide +kernel
  obtain ⟨⟨t?, c'⟩, hask, hliteral⟩ := Option.map_eq_some_iff.1 hrun
  obtain ⟨⟨d, literal⟩, hinstance, rfl⟩ := Option.bind_eq_some_iff.1 hliteral
  obtain ⟨t, rfl, hinstance⟩ := Option.bind_eq_some_iff.1 hinstance
  have ht : c.typeOf? 3 = some (some t, c') := ask?_eq_some_iff.2 ⟨4, hask⟩
  have hstart : Interviewed (SourceFile.ofText "a.py" "a, *b, c = 1, 2, 3, 4\n") [] c := .start
  have htarget : c.program.arena.TargetAt 4 [2] 3 := .tuple htuple rfl (.name hname (by decide))
  obtain ⟨t', heq, helement, -⟩ :=
    unpacked_name hstart hreach hassign htarget (hvalue.symm ▸ hitems) ht
  cases heq
  rw [hvalue] at helement
  refine ⟨t, c', d, ht, hinstance, hbound, hlast, hthird, (helement 7 hthird).resolve_right ?_⟩
  rintro ⟨hunknown, -⟩
  cases (instance?_of_isUnknown hunknown).symm.trans hinstance

end Checker

end TypeProbe
