import TypeProbe.Proofs.Inference.Exactness
import TypeProbe.Proofs.Types.Covering

/-!
# What a subscript of a tuple selects

The type of a tuple has one type for every entry of its display, also for a starred one, which adds
any number of elements. A subscript of the display with a whole number selects among these types as
it selects among the elements at run time (`selected?`), or gives the union of all if it selects none
(`Checker.subscript_admits`). So the type fits the selected element if the entry that is
selected by counting entries is the one that adds the element, or if there is none; behind a starred
entry that adds other than one element it is not.

Of a starred display the type is the union of the types of its elements, without literal values if it
is a list (`Memory.contributes_entry`). The type of an element is left out only where a display or a
star around it has been cut off.
-/

namespace TypeProbe

/-- The element at a place, where negative places count from the end. -/
def selected? {α : Type} (k : Int) (as : List α) : Option α :=
  if 0 ≤ k then as[k.toNat]?
  else if 0 ≤ as.length + k then as[(as.length + k).toNat]?
  else none

/-- The entries of the display of a list or a tuple. What is made by going through something has
none. -/
def Arena.displayed? (a : Arena) (n : NodeId) : Option (List NodeId) :=
  match a.form? n with
  | some (.tuple entries _) => some entries
  | some (.list entries) =>
    if entries.all fun entry => a.kind? entry != some .listComprehension then some entries else none
  | _ => none

/-- The elements that an entry adds to a display, at most `fuel` displays deep: those of the display
that it stars, or itself. -/
def Arena.contributed? (a : Arena) : (fuel : Nat) → (entry : NodeId) → Option (List NodeId)
  | 0, _ => none
  | fuel + 1, entry =>
    match a.form? entry with
    | some (.unpack expression) => do
      let entries ← a.displayed? expression
      let parts ← entries.mapM (a.contributed? fuel)
      return parts.flatten
    | _ => some [entry]

/-- Where each element of a list has a result there are corresponding results. -/
theorem forall₂_of_mapM_eq_some {α β : Type} {f : α → Option β} {as : List α} {bs : List β}
    (h : as.mapM f = some bs) : List.Forall₂ (fun a b => f a = some b) as bs := by
  induction as generalizing bs with
  | nil =>
    cases h
    exact .nil
  | cons a as ih =>
    rw [List.mapM_cons] at h
    obtain ⟨b, hb, h⟩ := Option.bind_eq_some_iff.1 h
    obtain ⟨bs', hbs, h⟩ := Option.bind_eq_some_iff.1 h
    cases h
    exact .cons hb (ih hbs)

namespace Arena

variable {a : Arena} {n entry element : NodeId} {entries part : List NodeId}

/-- The entries of a display are its children. -/
theorem reaches_of_displayed? (h : a.displayed? n = some entries) (hentry : entry ∈ entries) :
    a.Reaches n entry := by
  unfold displayed? at h
  split at h
  · rename_i hform
    cases h
    exact .single (mem_children_of_form? hform hentry)
  · rename_i hform
    obtain ⟨-, heq⟩ := Option.ite_none_right_eq_some.1 h
    cases heq
    exact .single (mem_children_of_form? hform hentry)
  · cases h

/-- What an entry adds is found below it. -/
theorem reaches_of_contributed? {fuel : Nat} (h : a.contributed? fuel entry = some part)
    (helement : element ∈ part) : a.Reaches entry element := by
  -- On the nesting of displays.
  induction fuel generalizing entry part with
  | zero => cases h
  | succ fuel ih =>
    unfold contributed? at h
    split at h
    · rename_i expression hform
      obtain ⟨entries, hentries, h⟩ := Option.bind_eq_some_iff.1 h
      obtain ⟨parts, hparts, heq⟩ := Option.bind_eq_some_iff.1 h
      cases heq
      obtain ⟨part, hpart, helement⟩ := List.mem_flatten.1 helement
      obtain ⟨inner, hinner, hcontributed⟩ :=
        (TypeStore.exists_mem_of_forall₂ (forall₂_of_mapM_eq_some hparts)).2 part hpart
      exact .head (mem_children_of_form? hform List.mem_cons_self)
        ((reaches_of_displayed? hentries hinner).trans (ih hcontributed helement))
    · cases h
      rw [List.mem_singleton.1 helement]
      exact .refl

end Arena

/-- A display has a value. -/
theorem Program.hasValue_of_displayed? {p : Program} {n : NodeId} {entries : List NodeId}
    (h : p.arena.displayed? n = some entries) : p.hasValue n = true := by
  unfold Arena.displayed? at h
  unfold hasValue
  split at h
  · rw [‹p.arena.form? n = _›]
    rfl
  · rw [‹p.arena.form? n = _›]
    rfl
  · cases h

/-- A subscript picks the type that is selected. -/
theorem selected?_eq {α : Type} (k : Int) (as : List α) :
    selected? k as = (Expressions.pickedPlace? as.length k).bind (as[·]?) := by
  unfold selected? Expressions.pickedPlace?
  by_cases hk : 0 ≤ k
  · have hneg : ¬k < 0 := by omega
    simp only [if_pos hk, if_neg hneg, Option.bind_some]
  · have hneg : k < 0 := by omega
    rw [if_neg hk]
    simp only [if_pos hneg]
    split
    · rfl
    · rfl

open TypeStore

namespace Memory

variable {p : Program} {cut : Query → Prop} {m : Memory} {n entry expression : NodeId}
  {t whole : TypeId} {types : List TypeId}

/-- What comes out of values of a class is a matter of the class. -/
theorem iterated_of_isNominal {s : TypeStore} {b : Builtins} {d : ClassId}
    {arguments : Option (List TypeId)} {literal : Option LiteralValue}
    (h : s.IsNominal whole d arguments literal) :
    Values.iterated b whole s = Values.itemsOf b whole s := by
  unfold Values.iterated Values.iteratedAt
  rw [get_bind_apply, shape?_of_get? h]

/-- What comes out of a tuple is the union of the types in it. -/
theorem iterated_tuple {s : TypeStore} (hapart : p.builtins.Apart)
    (h : s.IsNominal whole p.builtins.tuple (some types) none) :
    Values.iterated p.builtins whole s = Values.unionOrUnknown types s := by
  obtain ⟨htext, hbytes, hrange, -, -⟩ := hapart.tuple
  rw [iterated_of_isNominal h]
  unfold Values.itemsOf
  rw [get_bind_apply, h.instanceClass?_eq, h.argumentsOf?_eq]
  dsimp only
  rw [if_neg htext, if_neg (not_or.2 ⟨hbytes, hrange⟩), if_pos rfl]
  rfl

/-- What comes out of a list is what it is said to hold. -/
theorem iterated_list {s : TypeStore} {item : TypeId} (hapart : p.builtins.Apart)
    (h : s.IsNominal whole p.builtins.list (some [item]) none) :
    Values.iterated p.builtins whole s = (item, s) := by
  obtain ⟨htext, hbytes, hrange, htuple⟩ := hapart.list
  rw [iterated_of_isNominal h]
  unfold Values.itemsOf
  rw [get_bind_apply, h.instanceClass?_eq, h.argumentsOf?_eq]
  dsimp only
  rw [if_neg htext, if_neg (not_or.2 ⟨hbytes, hrange⟩), if_neg htuple, if_pos (.inl rfl)]
  rfl

/-- Nothing is known of what comes out of what is unknown. -/
theorem iterated_of_isUnknown {s : TypeStore} {b : Builtins} (h : s.isUnknown whole = true) :
    Values.iterated b whole s = (.unknown, s) := by
  have hitems : Values.itemsOf b whole s = (.unknown, s) := by
    unfold Values.itemsOf
    rw [get_bind_apply, instanceClass?, instance?_of_isUnknown h]
    rfl
  unfold Values.iterated Values.iteratedAt
  rw [get_bind_apply]
  cases hshape : s.shape? whole with
  | none => exact hitems
  | some shape =>
    rw [isUnknown, hshape] at h
    cases shape with
    | unknown incomplete => exact hitems
    | _ => cases h

/-- What an entry has or adds as a type covers the types of all of the given elements. It may leave
out that of an element if the entry, or what is around the element in it, has been cut off; but then
it is vague. -/
def Contributes (p : Program) (cut : Query → Prop) (m : Memory) (entry : NodeId) (t : TypeId)
    (elements : List NodeId) : Prop :=
  ∀ element ∈ elements, (∃ x, m.Takes p cut element x ∧ m.store.Covers t x) ∨
    m.store.IsVague t ∧ p.arena.CutAround cut entry element

/-- A type that covers what an entry contributes contributes it as well, for what is around the
entry. -/
theorem Contributes.of_covers {elements : List NodeId} {wide : TypeId}
    (h : m.Contributes p cut entry t elements) (hcovers : m.store.Covers wide t)
    (hreaches : p.arena.Reaches n entry) : m.Contributes p cut n wide elements := by
  intro element helement
  rcases h element helement with ⟨x, hx, hcovered⟩ | ⟨hvague, hcut⟩
  · exact .inl ⟨x, hx, hcovers.trans hcovered⟩
  · exact .inr ⟨hcovers.isVague hvague, hcut.head hreaches⟩

/-- What is unknown since an entry has been cut off is vague. -/
theorem contributes_of_isUnknown {elements : List NodeId} (ht : t.In m.store)
    (hunknown : m.store.isUnknown t = true) (hcut : cut (.node entry))
    (hreaches : ∀ element ∈ elements, p.arena.Reaches entry element) :
    m.Contributes p cut entry t elements := fun element helement =>
  .inr ⟨isVague_of_isUnknown ht hunknown, entry, .refl, hreaches element helement, hcut⟩

section Contributions

variable (hm : m.Explained p cut) (hbuiltins : p.builtins = Builtins.foreknown.1)
include hm hbuiltins

/-- What comes out of a display contributes the elements of its entries if their types do. -/
theorem contributes_displayed {fuel : Nat} {entries : List NodeId} {parts : List (List NodeId)}
    (hentries : p.arena.displayed? expression = some entries)
    (hcontributed : List.Forall₂ (fun entry part => p.arena.contributed? fuel entry = some part)
      entries parts)
    (hparts : ∀ {entry part}, p.arena.contributed? fuel entry = some part →
      (∀ t, m.Takes p cut entry t → m.Contributes p cut entry t part) ∧
      (p.arena.kind? entry ≠ some .listComprehension →
        ∀ t, m.Enters p cut entry t → m.Contributes p cut entry t part))
    (hwhole : m.Takes p cut expression whole)
    (hmade : m.store.Made [whole] (Values.iterated p.builtins whole) t) :
    m.Contributes p cut expression t parts.flatten := by
  intro element helement
  obtain ⟨part, hpart, helement⟩ := List.mem_flatten.1 helement
  obtain ⟨entry, hentry, hadds⟩ := (exists_mem_of_forall₂ hcontributed).2 part hpart
  obtain ⟨htakes, henters⟩ := hparts hadds
  have hbelow := Arena.reaches_of_displayed? hentries hentry
  have hapart : p.builtins.Apart := hbuiltins ▸ apart_foreknown
  obtain ⟨s, hs, hids, ht, hwithin⟩ := hmade
  have hgrown : s.Within (Values.iterated p.builtins whole s).2 :=
    (keeping_iteratedAt _ _ _ s).get?
  have hsame := (hgrown.trans hwithin).get?_eq (hasAll_cons.1 hids).1
  rcases hwhole.explains hm with hexplained | ⟨hunknown, -, hcut⟩
  · unfold Arena.displayed? at hentries
    unfold Explains at hexplained
    split at hentries
    · rename_i items _ hform
      cases hentries
      rw [hform] at hexplained
      obtain ⟨types, htypes, hnominal⟩ := hexplained
      have hnominal : s.IsNominal whole p.builtins.tuple (some types) none :=
        hsame.symm.trans hnominal.isNominal_specialized
      rw [iterated_tuple hapart hnominal] at ht hwithin
      have hall : s.HasAll types := by
        have hall : s.HasAll ((s.argumentsOf? whole).getD []) := hs.sound.hasAll_arguments
        rwa [hnominal.argumentsOf?_eq] at hall
      have hunion : m.store.Made types (Values.unionOrUnknown types) t :=
        ⟨s, hs, hall, ht, hwithin⟩
      obtain ⟨type, htype, htaken⟩ := (exists_mem_of_forall₂ htypes).1 entry hentry
      exact (htakes type htaken).of_covers (hunion.covers_unionOrUnknown htype) hbelow element
        helement
    · rename_i items hform
      obtain ⟨hplain, heq⟩ := Option.ite_none_right_eq_some.1 hentries
      cases heq
      rw [hform] at hexplained
      obtain ⟨types, item, htypes, hunion, hnominal⟩ := hexplained
      have hnominal : s.IsNominal whole p.builtins.list (some [item]) none :=
        hsame.symm.trans hnominal.isNominal_specialized
      rw [iterated_list hapart hnominal] at ht
      cases ht
      obtain ⟨type, htype, hentered⟩ := (exists_mem_of_forall₂ htypes).1 entry hentry
      have hkind := bne_iff_ne.1 (List.all_eq_true.1 hplain entry hentry)
      exact (henters hkind type hentered).of_covers (hunion.covers_unionOrUnknown htype) hbelow
        element helement
    · cases hentries
  -- Nothing comes out of a display whose evaluation was cut off.
  · have hunknown' : s.isUnknown whole = true := by
      rwa [isUnknown, TypeStore.shape?, ← hsame]
    rw [iterated_of_isUnknown hunknown'] at ht
    cases ht
    refine contributes_of_isUnknown (hm.sound.store.basic_in (by decide))
      (Evaluation.isUnknown_unknown hm.toRegular) (hcut (Program.hasValue_of_displayed? hentries))
      (fun element helement => hbelow.trans ?_) element helement
    exact Arena.reaches_of_contributed? hadds helement

/-- The type that an entry of a display is taken to have, or that it adds to a list, contributes the
elements that the entry adds. -/
theorem contributes_entry (fuel : Nat) {part : List NodeId}
    (hpart : p.arena.contributed? fuel entry = some part) :
    (∀ t, m.Takes p cut entry t → m.Contributes p cut entry t part) ∧
      (p.arena.kind? entry ≠ some .listComprehension →
        ∀ t, m.Enters p cut entry t → m.Contributes p cut entry t part) := by
  -- On the nesting of displays.
  induction fuel generalizing entry part with
  | zero => cases hpart
  | succ fuel ih =>
    have hbelow : ∀ element ∈ part, p.arena.Reaches entry element :=
      fun element => Arena.reaches_of_contributed? hpart
    unfold Arena.contributed? at hpart
    split at hpart
    · rename_i expression hform
      obtain ⟨entries, hentries, hpart⟩ := Option.bind_eq_some_iff.1 hpart
      obtain ⟨parts, hparts, heq⟩ := Option.bind_eq_some_iff.1 hpart
      cases heq
      have hstarred : p.arena.Reaches entry expression :=
        .single (Arena.mem_children_of_form? hform List.mem_cons_self)
      have hdisplayed : ∀ {whole t}, m.Takes p cut expression whole →
          m.store.Made [whole] (Values.iterated p.builtins whole) t →
          m.Contributes p cut expression t parts.flatten :=
        contributes_displayed hm hbuiltins hentries (forall₂_of_mapM_eq_some hparts) ih
      refine ⟨fun t ht => ?_, fun _ t ht => ?_⟩
      · rcases ht.explains hm with hexplained | ⟨hunknown, hin, hcut⟩
        · unfold Explains at hexplained
          rw [hform] at hexplained
          obtain ⟨whole, hwhole, hmade⟩ := hexplained
          exact (hdisplayed hwhole hmade).of_covers (.refl t) hstarred
        · refine contributes_of_isUnknown hin hunknown (hcut ?_) hbelow
          rw [Program.hasValue, hform]
          rfl
      · obtain ⟨type, hwiden, hentered⟩ := ht
        rw [hform] at hentered
        obtain ⟨whole, hwhole, hmade⟩ := hentered
        exact (hdisplayed hwhole hmade).of_covers hwiden.covers_widen hstarred
    · rename_i hplain
      cases hpart
      have hself : ∀ t, m.Takes p cut entry t → m.Contributes p cut entry t [entry] := by
        intro t ht element helement
        obtain rfl := List.mem_singleton.1 helement
        exact .inl ⟨t, ht, .refl t⟩
      refine ⟨hself, fun hkind t ht => ?_⟩
      obtain ⟨type, hwiden, hentered⟩ := ht
      have htaken : m.Takes p cut entry type := by
        split at hentered
        · rename_i expression hform
          exact absurd hform (hplain expression)
        · rename_i hform
          exact absurd (Arena.kind?_of_form? hform) hkind
        · exact hentered
      exact (hself type htaken).of_covers hwiden.covers_widen .refl

end Contributions

/-! ## Subscripts -/

/-- A subscript with a whole number takes the type that it selects out of a tuple, or a type that
covers all types in the tuple. -/
theorem Picks.selects (hbuiltins : p.builtins = Builtins.foreknown.1) {subscript : TypeId} {k : Int}
    (h : m.Picks p types subscript t) (hk : -2 ^ 63 ≤ k ∧ k < 2 ^ 63)
    (hsubscript : m.store.Reduces p.builtins k subscript) :
    selected? k types = some t ∨ ∀ type ∈ types, m.store.Covers t type := by
  obtain ⟨s, -, hids, hwithin, hpicks⟩ := h
  have hapart : p.builtins.Apart := hbuiltins ▸ apart_foreknown
  have hall : s.pickedType? types subscript = none → ∀ literal,
      s.instance? subscript = none ∨ s.instance? subscript = some (p.builtins.int, literal) →
      ∀ type ∈ types, m.store.Covers t type := by
    intro hnone literal hinstance type htype
    have hslice : s.instanceClass? subscript ≠ some p.builtins.slice := by
      rw [instanceClass?]
      rcases hinstance with h | h
      · rw [h]
        exact (Option.some_ne_none _).symm
      · rw [h]
        exact fun heq => hapart.int (Option.some.inj heq)
    exact ((hpicks hslice).2 hnone).covers_unionOrUnknown htype
  have hin := (hasAll_cons.1 hids).1
  rcases (reduces_congr (hwithin.get?_eq hin)).1 hsubscript with hunknown | ⟨literal, h, hvalue⟩
  · have hnone := instance?_of_isUnknown hunknown
    refine .inr (hall ?_ none (.inl hnone))
    rw [pickedType?, hnone]
    rfl
  cases literal with
  | none =>
    refine .inr (hall ?_ none (.inr h.instance?_eq))
    rw [pickedType?, h.instance?_eq]
    rfl
  | some value =>
    obtain ⟨k', rfl, hrange, hmod⟩ := hvalue _ rfl
    obtain rfl := Values.eq_of_modEq hrange hk hmod
    have hpicked : s.pickedType? types subscript = selected? k' types := by
      rw [selected?_eq, pickedType?, h.instance?_eq]
    cases hselected : selected? k' types with
    | none => exact .inr (hall (hpicked.trans hselected) _ (.inr h.instance?_eq))
    | some type =>
      have hslice : s.instanceClass? subscript ≠ some p.builtins.slice := by
        rw [h.instanceClass?_eq]
        exact fun heq => hapart.int (Option.some.inj heq)
      exact .inl (congrArg some ((hpicks hslice).1 type (hpicked.trans hselected)).symm)

/-- The type that is kept of a subscript of the display of a tuple with a whole number is selected
from the types that the entries are taken to have, or covers all of these. Nothing is known of it if
the display has been cut off. -/
theorem Explained.subscript_selects (hm : m.Explained p cut)
    (hbuiltins : p.builtins = Builtins.foreknown.1) {base value : NodeId}
    {items entries : List NodeId} {enclosed : Bool} {k : Int}
    (hindex : p.arena.form? n = some (.index base items))
    (hbase : p.arena.form? base = some (.tuple entries enclosed))
    (hvalue : items.map p.argumentValue? = [some value]) (hdenotes : p.arena.Denotes value k)
    (hk : -2 ^ 63 ≤ k ∧ k < 2 ^ 63) (hkept : m.nodeTypes.lookup n = some t) :
    (m.store.isUnknown t = true ∧ t.In m.store ∧ cut (.node base)) ∨
      ∃ types, List.Forall₂ (m.Takes p cut) entries types ∧
        (selected? k types = some t ∨ ∀ type ∈ types, m.store.Covers t type) := by
  have hexplained := hm.explains n t hkept
  unfold Explains at hexplained
  rw [hindex] at hexplained
  obtain ⟨tuple, htuple, s, -, hids, hwithin, hnone, hpicks⟩ := hexplained
  have hsame := hwithin.get?_eq (hasAll_cons.1 hids).1
  rcases htuple.explains hm with hexplained | ⟨hunknown, -, hcut⟩
  · unfold Explains at hexplained
    rw [hbase] at hexplained
    obtain ⟨types, htypes, hnominal⟩ := hexplained
    obtain ⟨subscript, hpicks, hsubscript⟩ :=
      hpicks types (hsame.symm.trans hnominal.isNominal_specialized)
    have hreduces := reduces_of_denotes hm hbuiltins hdenotes (hsubscript value hvalue)
    exact .inr ⟨types, htypes, hpicks.selects hbuiltins hk hreduces⟩
  · obtain rfl := hnone (by rwa [isUnknown, TypeStore.shape?, ← hsame])
    refine .inl ⟨Evaluation.isUnknown_unknown hm.toRegular, hm.sound.store.basic_in (by decide),
      hcut ?_⟩
    rw [Program.hasValue, hbase]
    rfl

end Memory

/-- What is selected from a list is in it. -/
theorem mem_of_selected? {α : Type} {k : Int} {as : List α} {a : α} (h : selected? k as = some a) :
    a ∈ as := by
  unfold selected? at h
  split at h
  · exact List.mem_of_getElem? h
  · split at h
    · exact List.mem_of_getElem? h
    · cases h

/-- What is selected from lists that correspond corresponds. -/
theorem exists_selected? {α β : Type} {R : α → β → Prop} {as : List α} {bs : List β}
    (h : List.Forall₂ R as bs) {k : Int} {a : α} (ha : selected? k as = some a) :
    ∃ b, selected? k bs = some b ∧ R a b := by
  rw [selected?_eq] at ha ⊢
  rw [← h.length_eq]
  obtain ⟨i, hi, ha⟩ := Option.bind_eq_some_iff.1 ha
  obtain ⟨hlt, rfl⟩ := List.getElem?_eq_some_iff.1 ha
  have hlt' : i < bs.length := h.length_eq ▸ hlt
  refine ⟨bs[i], ?_, h.get hlt hlt'⟩
  rw [hi, Option.bind_some, List.getElem?_eq_getElem hlt']

namespace Checker

/-- Whatever a checker for a file has been asked before: a subscript of the display of a tuple with a
whole number has the type at the selected place in the list of the types that the entries are taken
to have, one for each, or covers all of these; nothing is known of it only if the display has been
cut off. So it covers the type of the element that is selected at run time, if that is one of those
that the entry at the selected place in the list of entries adds to the display, or if the list of
entries has no such place. It leaves that type out only where the display, or what is around the
element in it, has been cut off. -/
theorem subscript_admits {name text : String} {asked : List Query.State} {c c' : Checker}
    (h : Traced (SourceFile.ofText name text) asked c) {n base value : NodeId}
    {items entries : List NodeId} {enclosed : Bool} {fuel : Nat} {parts : List (List NodeId)}
    {k : Int} {t : TypeId}
    (hindex : c.program.arena.form? n = some (.index base items))
    (hbase : c.program.arena.form? base = some (.tuple entries enclosed))
    (hvalue : items.map c.program.argumentValue? = [some value])
    (hdenotes : c.program.arena.Denotes value k) (hk : -2 ^ 63 ≤ k ∧ k < 2 ^ 63)
    (hparts : entries.mapM (c.program.arena.contributed? fuel) = some parts)
    (ht : c.typeOf? n = some (some t, c')) :
    let cut := Query.WasCutOff c.program ((.node n, c.memory) :: asked)
    ((c'.store.isUnknown t = true ∧ cut (.node base)) ∨ ∃ types,
      List.Forall₂ (c'.memory.Takes c.program cut) entries types ∧
      (selected? k types = some t ∨ ∀ type ∈ types, c'.store.Covers t type)) ∧
    ∀ element, selected? k parts.flatten = some element →
      (∀ part, selected? k parts = some part → element ∈ part) →
      (∃ x, c'.memory.Takes c.program cut element x ∧ c'.store.Covers t x) ∨
        c'.store.IsVague t ∧ c.program.arena.CutAround cut base element := by
  intro cut
  have htraced := Traced.answered (q := .node n) h trivial ht
  obtain ⟨-, hprogram⟩ := ask?_eq_some ht
  have hbuiltins : c.program.builtins = Builtins.foreknown.1 := by rw [h.reached.program_eq]
  have hm : c'.memory.Explained c.program cut := by
    have hexplained := htraced.explained fun _ h => h
    rwa [hprogram] at hexplained
  have hparts := forall₂_of_mapM_eq_some hparts
  have hcontributes : ∀ {entry part}, c.program.arena.contributed? fuel entry = some part →
      ∀ type, c'.memory.Takes c.program cut entry type →
        c'.memory.Contributes c.program cut entry type part :=
    fun hpart => (Memory.contributes_entry hm hbuiltins fuel hpart).1
  have hbelow : ∀ entry ∈ entries, c.program.arena.Reaches base entry := fun entry hentry =>
    .single (Arena.mem_children_of_form? hbase hentry)
  have hselects := hm.subscript_selects hbuiltins hindex hbase hvalue hdenotes hk
    (h.reached.lookup_of_typeOf? ht)
  refine ⟨hselects.imp_left fun ⟨hunknown, _, hcut⟩ => ⟨hunknown, hcut⟩,
    fun element helement hpart => ?_⟩
  obtain ⟨part, hmem, hinner⟩ := List.mem_flatten.1 (mem_of_selected? helement)
  obtain ⟨entry, hentry, hadds⟩ := (exists_mem_of_forall₂ hparts).2 part hmem
  rcases hselects with ⟨hunknown, hin, hcut⟩ | ⟨types, htypes, hselected | hcovers⟩
  · exact .inr ⟨isVague_of_isUnknown hin hunknown, base, .refl,
      (hbelow entry hentry).trans (Arena.reaches_of_contributed? hadds hinner), hcut⟩
  -- The entry that is selected adds the element.
  · obtain ⟨entry, hentry, htaken⟩ := exists_selected? htypes.flip hselected
    obtain ⟨part, hpart', hadds⟩ := exists_selected? hparts hentry
    exact (hcontributes hadds t htaken).of_covers (.refl t)
      (hbelow entry (mem_of_selected? hentry)) element (hpart part hpart')
  -- The entry that adds the element need not be the one that is selected.
  · obtain ⟨type, htype, htaken⟩ := (exists_mem_of_forall₂ htypes).1 entry hentry
    exact (hcontributes hadds type htaken).of_covers (hcovers type htype)
      (hbelow entry hentry) element hinner

/-- Behind a starred list with two elements the entry with the number of the element is another
one: the second element is a number, and the subscript has the type of the text. -/
theorem subscript_admits_afterStar :
    let c := (SourceFile.ofText "a.py" "(*[1, 2], 'a')[1]\n").checker
    ∃ t c' d types, c.typeOf? 9 = some (some t, c') ∧
      c'.store.instance? t = some (d, some (.text "a")) ∧
      selected? 1 [[0, 1], [5]].flatten = some 1 ∧ selected? 1 [[0, 1], [5]] = some [5] ∧
      List.Forall₂ (c'.memory.Takes c.program
        (Query.WasCutOff c.program [(.node 9, c.memory)])) [3, 5] types ∧
      (selected? 1 types = some t ∨ ∀ type ∈ types, c'.store.Covers t type) := by
  intro c
  obtain ⟨hindex, hbase, hvalue, hnumber, hparts⟩ :
      c.program.arena.form? 9 = some (.index 6 [8]) ∧
      c.program.arena.form? 6 = some (.tuple [3, 5] true) ∧
      [8].map c.program.argumentValue? = [some 7] ∧
      c.program.arena.form? 7 = some (.number ⟨.int 1, true, false⟩) ∧
      [3, 5].mapM (c.program.arena.contributed? 2) = some [[0, 1], [5]] := by
    decide +kernel
  have hrun : (c.askWithin? 5 (.node 9)).map (fun r =>
      (r.1.bind r.2.store.instance?).bind (·.2)) = some (some (.text "a")) := by
    decide +kernel
  obtain ⟨⟨t?, c'⟩, hask, hliteral⟩ := Option.map_eq_some_iff.1 hrun
  obtain ⟨⟨d, literal⟩, hinstance, rfl⟩ := Option.bind_eq_some_iff.1 hliteral
  obtain ⟨t, rfl, hinstance⟩ := Option.bind_eq_some_iff.1 hinstance
  have ht : c.typeOf? 9 = some (some t, c') := ask?_eq_some_iff.2 ⟨5, hask⟩
  have hdenotes : c.program.arena.Denotes 7 1 := .number hnumber rfl rfl (by decide)
  have hstart : Traced (SourceFile.ofText "a.py" "(*[1, 2], 'a')[1]\n") [] c := .start
  obtain ⟨⟨hunknown, -⟩ | ⟨types, htypes, hselected⟩, -⟩ :=
    subscript_admits hstart hindex hbase hvalue hdenotes ⟨by omega, by omega⟩ hparts ht
  · cases (instance?_of_isUnknown hunknown).symm.trans hinstance
  · exact ⟨t, c', d, types, ht, hinstance, rfl, rfl, htypes, hselected⟩

end Checker

end TypeProbe
