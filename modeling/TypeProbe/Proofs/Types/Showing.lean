import Mathlib.Logic.Relation
import TypeProbe.Types.Printer

/-!
# What is shown of a type graph

`TypeGraph.Shows` says without bounds what is shown of an outline, together with its trace: the
handles that come up on the way, each with whether it is looked behind. A handle that is looked
behind is shown by the outline that stands there, any other by its mark or not at all.

`typeText_shows` says of every graph, with whatever cycles and unused handles, that a type is shown
in this way, that a handle is looked behind where it comes up first and nowhere else, and that the
handles which are looked behind are those that the type leads to (`TypeGraph.Reaches`).

The walk of the printer is bounded in depth. Handles with parts lie on the way down only once, so
the number of those that have not come up (`TypeGraph.unseen`) goes down with every step, and the
bound is never met (`renderHandle_walks`).
-/

namespace TypeProbe

/-- An outline has a handle in it. -/
inductive Outline.Mentions : Outline → Handle → Prop where
  /-- It is the handle. -/
  | handle (h : Handle) : Mentions (.handle h) h
  /-- It is a list, and an item has it. -/
  | item {items : List Outline} {item : Outline} {h : Handle} (hitem : item ∈ items)
      (hh : Mentions item h) : Mentions (.list items) h
  /-- It is a record, and a field has it. -/
  | field {fields : List (String × Outline)} {field : String × Outline} {h : Handle}
      (hfield : field ∈ fields) (hh : Mentions field.2 h) : Mentions (.record fields) h

/-- The handles that come up, in order, each with whether it is looked behind. -/
abbrev Trace := List (Handle × Bool)

/-- The handles that are looked behind. -/
def Trace.opened (trace : Trace) : List Handle := (trace.filter (·.2)).map (·.1)

namespace Outline

/-- What has a handle in it is the first item of a list, or the list of the others. -/
theorem mentions_list_cons {item : Outline} {items : List Outline} {h : Handle} :
    (list (item :: items)).Mentions h ↔ item.Mentions h ∨ (list items).Mentions h := by
  constructor
  · intro hmentions
    cases hmentions with
    | item hitem hh =>
      rcases List.mem_cons.1 hitem with rfl | hitem
      · exact .inl hh
      · exact .inr (.item hitem hh)
  · intro hmentions
    rcases hmentions with hh | hmentions
    · exact .item List.mem_cons_self hh
    · cases hmentions with
      | item hitem hh => exact .item (List.mem_cons_of_mem _ hitem) hh

/-- What has a handle in it is the first field of a record, or the record of the others. -/
theorem mentions_record_cons {name : String} {o : Outline} {fields : List (String × Outline)}
    {h : Handle} :
    (record ((name, o) :: fields)).Mentions h ↔ o.Mentions h ∨ (record fields).Mentions h := by
  constructor
  · intro hmentions
    cases hmentions with
    | field hfield hh =>
      rcases List.mem_cons.1 hfield with rfl | hfield
      · exact .inl hh
      · exact .inr (.field hfield hh)
  · intro hmentions
    rcases hmentions with hh | hmentions
    · exact .field (show (name, o) ∈ _ from List.mem_cons_self) hh
    · cases hmentions with
      | field hfield hh => exact .field (List.mem_cons_of_mem _ hfield) hh

end Outline

namespace TypeGraph

variable {g : TypeGraph}

/-- A handle is shown as part of what stands behind another one. -/
def LeadsTo (g : TypeGraph) (h h' : Handle) : Prop := ∃ o, g.outline? h = some o ∧ o.Mentions h'

/-- A handle is another one or is shown somewhere behind it. -/
def Reaches (g : TypeGraph) : Handle → Handle → Prop := Relation.ReflTransGen g.LeadsTo

/-- The mark of a class, a function or a type variable whose detail exists. -/
inductive Marked (g : TypeGraph) : Handle → String → Prop where
  /-- A class or its values. -/
  | nominal {id : TypeId} {detail : ClassId} {arguments : Option (List TypeId)}
      {literal : Option LiteralValue} {c : ClassDetail}
      (hshape : g.store.shape? id = some (.nominal detail arguments literal))
      (hdetail : g.store.class? detail = some c) :
      Marked g (.type id) s!"<cycle> class '{c.fullName}' id:{c.sourceId}"
  /-- A function. -/
  | function {id : TypeId} {detail : FunctionId} {receiver : Option TypeId}
      {openParameters : Option (List OpenParameter)} {f : FunctionDetail}
      (hshape : g.store.shape? id = some (.function detail receiver openParameters))
      (hdetail : g.store.function? detail = some f) :
      Marked g (.type id) s!"<cycle> function '{f.fullName}' parameter count:{f.parameters.length}"
  /-- A type variable. -/
  | typeVar {id : TypeId} {detail : TypeVarId} {scope scopedName : Option String}
      {v : TypeVarDetail} {place : String}
      (hshape : g.store.shape? id = some (.typeVar detail scope scopedName))
      (hdetail : g.store.typeVar? detail = some v) (hplace : place = scope.getD "N/A") :
      Marked g (.type id) s!"<cycle> {v.name} scope id:{place}"

/-- What is shown of an outline, and the handles that come up. -/
inductive Shows (g : TypeGraph) : Outline → Trace → Option Json → Prop where
  /-- A value without handles is shown as it is. -/
  | leaf (value : Json) : Shows g (.leaf value) [] (some value)
  /-- A handle that is looked behind is shown by what stands there. -/
  | opened {h : Handle} {o : Outline} {trace : Trace} {shown : Option Json}
      (ho : g.outline? h = some o) (hshown : Shows g o trace shown) :
      Shows g (.handle h) ((h, true) :: trace) shown
  /-- Nothing stands behind a handle that is not in use. -/
  | unused {h : Handle} (ho : g.outline? h = none) : Shows g (.handle h) [(h, true)] (some .null)
  /-- A handle that is not looked behind is shown by its mark. -/
  | marked {h : Handle} {text : String} (hmark : g.Marked h text) :
      Shows g (.handle h) [(h, false)] (some (.text text))
  /-- A handle that is not looked behind is left out without a mark. -/
  | unmarked {h : Handle} (hmark : ∀ text, ¬ g.Marked h text) : Shows g (.handle h) [(h, false)] none
  /-- A list without items. -/
  | listNil : Shows g (.list []) [] (some (.list []))
  /-- The first item of a list; what is left out is shown as nothing. -/
  | listCons {item : Outline} {items : List Outline} {trace rest : Trace} {shown : Option Json}
      {values : List Json} (hitem : Shows g item trace shown)
      (hitems : Shows g (.list items) rest (some (.list values))) :
      Shows g (.list (item :: items)) (trace ++ rest) (some (.list (shown.getD .null :: values)))
  /-- A record without fields. -/
  | recordNil : Shows g (.record []) [] (some (.record []))
  /-- The first field of a record, if something is shown of it. -/
  | recordCons {name : String} {o : Outline} {fields : List (String × Outline)}
      {trace rest : Trace} {value : Json} {values : List (String × Json)}
      (hfield : Shows g o trace (some value))
      (hfields : Shows g (.record fields) rest (some (.record values))) :
      Shows g (.record ((name, o) :: fields)) (trace ++ rest)
        (some (.record ((name, value) :: values)))
  /-- The first field of a record, which is left out. -/
  | recordDrop {name : String} {o : Outline} {fields : List (String × Outline)}
      {trace rest : Trace} {values : List (String × Json)} (hfield : Shows g o trace none)
      (hfields : Shows g (.record fields) rest (some (.record values))) :
      Shows g (.record ((name, o) :: fields)) (trace ++ rest) (some (.record values))

/-- Marks are those of classes, functions and type variables whose details exist. -/
theorem mark?_eq_some_iff {h : Handle} {text : String} :
    g.mark? h = some text ↔ g.Marked h text := by
  constructor
  · intro hmark
    unfold mark? at hmark
    split at hmark
    · split at hmark
      · obtain ⟨c, hc, rfl⟩ := Option.map_eq_some_iff.1 hmark
        exact .nominal ‹_› hc
      · obtain ⟨f, hf, rfl⟩ := Option.map_eq_some_iff.1 hmark
        exact .function ‹_› hf
      · obtain ⟨v, hv, rfl⟩ := Option.map_eq_some_iff.1 hmark
        exact .typeVar ‹_› hv rfl
      · cases hmark
    · cases hmark
  · rintro (⟨hshape, hdetail⟩ | ⟨hshape, hdetail⟩ | ⟨hshape, hdetail, rfl⟩) <;>
      simp [mark?, hshape, hdetail]

/-! ## Traces -/

end TypeGraph

namespace Trace

variable {seen : List Handle} {trace rest : Trace}

@[simp] theorem opened_nil : opened [] = [] := rfl

@[simp] theorem opened_cons_true (h : Handle) (trace : Trace) :
    opened ((h, true) :: trace) = h :: opened trace := rfl

@[simp] theorem opened_cons_false (h : Handle) (trace : Trace) :
    opened ((h, false) :: trace) = opened trace := rfl

@[simp] theorem opened_append (trace rest : Trace) :
    opened (trace ++ rest) = opened trace ++ opened rest := by
  simp [opened]

/-- Handles are looked behind where they come up first, given those that have come up before. -/
def Ordered : (seen : List Handle) → Trace → Prop
  | _, [] => True
  | seen, (h, true) :: trace => h ∉ seen ∧ Ordered (h :: seen) trace
  | seen, (h, false) :: trace => h ∈ seen ∧ Ordered seen trace

/-- The end of a trace begins with what came up before it. -/
theorem ordered_append : Ordered seen (trace ++ rest) ↔
    Ordered seen trace ∧ Ordered (trace.opened.reverse ++ seen) rest := by
  induction trace generalizing seen with
  | nil => exact (and_iff_right trivial).symm
  | cons entry trace ih =>
    obtain ⟨h, isFirst⟩ := entry
    cases isFirst with
    | true => simp [Ordered, ih, and_assoc]
    | false => simp [Ordered, ih, and_assoc]

/-- What comes up has come up before, or it is looked behind. -/
theorem Ordered.mem_opened (htrace : Ordered seen trace) {h : Handle} {isFirst : Bool}
    (hmem : (h, isFirst) ∈ trace) : h ∈ seen ∨ h ∈ trace.opened := by
  induction trace generalizing seen with
  | nil => cases hmem
  | cons entry trace ih =>
    obtain ⟨h', isFirst'⟩ := entry
    cases isFirst' with
    | true =>
      rw [opened_cons_true]
      rcases List.mem_cons.1 hmem with heq | hmem
      · obtain rfl := (Prod.mk.inj heq).1
        exact .inr List.mem_cons_self
      · rcases ih htrace.2 hmem with hseen | hopened
        · rcases List.mem_cons.1 hseen with rfl | hseen
          · exact .inr List.mem_cons_self
          · exact .inl hseen
        · exact .inr (List.mem_cons_of_mem _ hopened)
    | false =>
      rcases List.mem_cons.1 hmem with heq | hmem
      · obtain rfl := (Prod.mk.inj heq).1
        exact .inl htrace.1
      · exact ih htrace.2 hmem

/-- No handle is looked behind twice, nor one that has come up before. -/
theorem Ordered.nodup (htrace : Ordered seen trace) :
    trace.opened.Nodup ∧ ∀ h ∈ trace.opened, h ∉ seen := by
  induction trace generalizing seen with
  | nil => exact ⟨.nil, nofun⟩
  | cons entry trace ih =>
    obtain ⟨h, isFirst⟩ := entry
    cases isFirst with
    | true =>
      obtain ⟨hnodup, hnew⟩ := ih htrace.2
      refine ⟨List.nodup_cons.2 ⟨fun hmem => hnew h hmem List.mem_cons_self, hnodup⟩, ?_⟩
      rw [opened_cons_true]
      refine List.forall_mem_cons.2 ⟨htrace.1, fun h' hmem hseen => ?_⟩
      exact hnew h' hmem (List.mem_cons_of_mem _ hseen)
    | false => exact ih htrace.2

/-- Within a trace a handle is looked behind just where it comes up first. -/
theorem Ordered.first_iff (htrace : Ordered [] trace) {before after : Trace} {h : Handle}
    {isFirst : Bool} (heq : trace = before ++ (h, isFirst) :: after) :
    isFirst = true ↔ ∀ b, (h, b) ∉ before := by
  subst heq
  obtain ⟨hordered, hat⟩ := ordered_append.1 htrace
  rw [List.append_nil] at hat
  have hbefore : (∀ b, (h, b) ∉ before) ↔ h ∉ before.opened.reverse := by
    rw [List.mem_reverse]
    constructor
    · intro hnone hopened
      obtain ⟨entry, hentry, rfl⟩ := List.mem_map.1 hopened
      exact hnone entry.2 (List.mem_filter.1 hentry).1
    · intro hnone b hmem
      exact hnone ((hordered.mem_opened hmem).resolve_left List.not_mem_nil)
  rw [hbefore]
  cases isFirst with
  | true => exact ⟨fun _ => hat.1, fun _ => rfl⟩
  | false => exact ⟨nofun, fun hnone => absurd hat.1 hnone⟩

end Trace

namespace TypeGraph

variable {g : TypeGraph}

/-! ## Traces cover what is reached -/

namespace Shows

variable {o : Outline} {trace : Trace} {shown : Option Json}

/-- Every handle of an outline comes up. -/
theorem mem_of_mentions (hshows : g.Shows o trace shown) {h : Handle} (hh : o.Mentions h) :
    ∃ b, (h, b) ∈ trace := by
  have hleft : ∀ {trace rest : Trace}, (∃ b, (h, b) ∈ trace) → ∃ b, (h, b) ∈ trace ++ rest :=
    fun ⟨b, hb⟩ => ⟨b, List.mem_append_left _ hb⟩
  have hright : ∀ {trace rest : Trace}, (∃ b, (h, b) ∈ rest) → ∃ b, (h, b) ∈ trace ++ rest :=
    fun ⟨b, hb⟩ => ⟨b, List.mem_append_right _ hb⟩
  induction hshows with
  | leaf => cases hh
  | opened ho hshown => cases hh; exact ⟨true, List.mem_cons_self⟩
  | unused => cases hh; exact ⟨true, List.mem_cons_self⟩
  | marked => cases hh; exact ⟨false, List.mem_cons_self⟩
  | unmarked => cases hh; exact ⟨false, List.mem_cons_self⟩
  | listNil => cases hh; contradiction
  | listCons hitem hitems ihitem ihitems =>
    exact (Outline.mentions_list_cons.1 hh).elim (hleft ∘ ihitem) (hright ∘ ihitems)
  | recordNil => cases hh; contradiction
  | recordCons hfield hfields ihfield ihfields =>
    exact (Outline.mentions_record_cons.1 hh).elim (hleft ∘ ihfield) (hright ∘ ihfields)
  | recordDrop hfield hfields ihfield ihfields =>
    exact (Outline.mentions_record_cons.1 hh).elim (hleft ∘ ihfield) (hright ∘ ihfields)

/-- What a handle leads to comes up if the handle is looked behind. -/
theorem mem_of_leadsTo (hshows : g.Shows o trace shown) {h h' : Handle}
    (hmem : (h, true) ∈ trace) (hleads : g.LeadsTo h h') : ∃ b, (h', b) ∈ trace := by
  have happend : ∀ {trace rest : Trace}, (h, true) ∈ trace ++ rest →
      ((h, true) ∈ trace → ∃ b, (h', b) ∈ trace) → ((h, true) ∈ rest → ∃ b, (h', b) ∈ rest) →
      ∃ b, (h', b) ∈ trace ++ rest := by
    intro trace rest hmem htrace hrest
    rcases List.mem_append.1 hmem with hmem | hmem
    · obtain ⟨b, hb⟩ := htrace hmem
      exact ⟨b, List.mem_append_left _ hb⟩
    · obtain ⟨b, hb⟩ := hrest hmem
      exact ⟨b, List.mem_append_right _ hb⟩
  obtain ⟨o', ho', hh'⟩ := hleads
  induction hshows with
  | leaf => cases hmem
  | opened ho hshown ih =>
    rcases List.mem_cons.1 hmem with heq | hmem
    · obtain rfl := (Prod.mk.inj heq).1
      obtain rfl := Option.some.inj (ho'.symm.trans ho)
      obtain ⟨b, hb⟩ := hshown.mem_of_mentions hh'
      exact ⟨b, List.mem_cons_of_mem _ hb⟩
    · obtain ⟨b, hb⟩ := ih hmem
      exact ⟨b, List.mem_cons_of_mem _ hb⟩
  | unused ho =>
    obtain rfl := (Prod.mk.inj (List.mem_singleton.1 hmem)).1
    cases ho'.symm.trans ho
  | marked => cases (Prod.mk.inj (List.mem_singleton.1 hmem)).2
  | unmarked => cases (Prod.mk.inj (List.mem_singleton.1 hmem)).2
  | listNil => cases hmem
  | listCons hitem hitems ihitem ihitems => exact happend hmem ihitem ihitems
  | recordNil => cases hmem
  | recordCons hfield hfields ihfield ihfields => exact happend hmem ihfield ihfields
  | recordDrop hfield hfields ihfield ihfields => exact happend hmem ihfield ihfields

/-- What comes up is reached from a handle of the outline. -/
theorem reaches_of_mem (hshows : g.Shows o trace shown) {h : Handle} {b : Bool}
    (hmem : (h, b) ∈ trace) : ∃ h₀, o.Mentions h₀ ∧ g.Reaches h₀ h := by
  have hself : ∀ {h₀ : Handle}, (h, b).1 = h₀ →
      ∃ h₁, (Outline.handle h₀).Mentions h₁ ∧ g.Reaches h₁ h := by
    rintro h₀ rfl
    exact ⟨h, .handle h, .refl⟩
  induction hshows with
  | leaf => cases hmem
  | opened ho hshown ih =>
    rcases List.mem_cons.1 hmem with heq | hmem
    · exact hself (Prod.mk.inj heq).1
    · obtain ⟨h₁, hmentions, hreaches⟩ := ih hmem
      exact ⟨_, .handle _, .head ⟨_, ho, hmentions⟩ hreaches⟩
  | unused => exact hself (Prod.mk.inj (List.mem_singleton.1 hmem)).1
  | marked => exact hself (Prod.mk.inj (List.mem_singleton.1 hmem)).1
  | unmarked => exact hself (Prod.mk.inj (List.mem_singleton.1 hmem)).1
  | listNil => cases hmem
  | listCons hitem hitems ihitem ihitems =>
    rcases List.mem_append.1 hmem with hmem | hmem
    · obtain ⟨h₀, hmentions, hreaches⟩ := ihitem hmem
      exact ⟨h₀, Outline.mentions_list_cons.2 (.inl hmentions), hreaches⟩
    · obtain ⟨h₀, hmentions, hreaches⟩ := ihitems hmem
      exact ⟨h₀, Outline.mentions_list_cons.2 (.inr hmentions), hreaches⟩
  | recordNil => cases hmem
  | recordCons hfield hfields ihfield ihfields | recordDrop hfield hfields ihfield ihfields =>
    rcases List.mem_append.1 hmem with hmem | hmem
    · obtain ⟨h₀, hmentions, hreaches⟩ := ihfield hmem
      exact ⟨h₀, Outline.mentions_record_cons.2 (.inl hmentions), hreaches⟩
    · obtain ⟨h₀, hmentions, hreaches⟩ := ihfields hmem
      exact ⟨h₀, Outline.mentions_record_cons.2 (.inr hmentions), hreaches⟩

/-- The handles that are looked behind in showing a handle are those that it reaches. -/
theorem mem_opened_iff {h : Handle} (hshows : g.Shows (.handle h) trace shown)
    (hordered : trace.Ordered []) (h' : Handle) : h' ∈ trace.opened ↔ g.Reaches h h' := by
  have hopened : ∀ {h' : Handle}, (∃ b, (h', b) ∈ trace) → h' ∈ trace.opened := fun ⟨_, hb⟩ =>
    (hordered.mem_opened hb).resolve_left List.not_mem_nil
  have hentry : ∀ {h' : Handle}, h' ∈ trace.opened → (h', true) ∈ trace := by
    intro h' hmem
    obtain ⟨⟨h₁, isFirst⟩, hentry, rfl⟩ := List.mem_map.1 hmem
    obtain ⟨hentry, rfl⟩ := List.mem_filter.1 hentry
    exact hentry
  constructor
  · intro hmem
    obtain ⟨h₀, hmentions, hreaches⟩ := hshows.reaches_of_mem (hentry hmem)
    cases hmentions
    exact hreaches
  · intro hreaches
    induction hreaches with
    | refl => exact hopened (hshows.mem_of_mentions (.handle h))
    | tail _ hleads ih => exact hopened (hshows.mem_of_leadsTo (hentry ih) hleads)

end Shows

/-! ## The walk of the printer -/

/-- The handles with parts. -/
def inner (g : TypeGraph) : List Handle :=
  (List.range g.store.types.size).map (fun i => .type ⟨i⟩) ++
    (List.range g.store.classes.size).map (fun i => .classDetail ⟨i⟩) ++
    (List.range g.store.functions.size).map (fun i => .functionDetail ⟨i⟩) ++
    (List.range g.store.typeVars.size).map (fun i => .typeVarDetail ⟨i⟩)

/-- The number of handles with parts that have not come up. -/
def unseen (g : TypeGraph) (seen : List Handle) : Nat :=
  (g.inner.filter fun h => !seen.contains h).length

/-- What stands behind a handle without parts has no handle in it. -/
theorem mem_inner_of_mentions {h h' : Handle} {o : Outline} (ho : g.outline? h = some o)
    (hh' : o.Mentions h') : h ∈ g.inner := by
  have hlt : ∀ {α : Type} {xs : Array α} {i : Nat} {f : α → Outline},
      xs[i]?.map f = some o → i ∈ List.range xs.size := by
    intro α xs i f hsome
    obtain ⟨x, hx, -⟩ := Option.map_eq_some_iff.1 hsome
    exact List.mem_range.2 (Array.getElem?_eq_some_iff.1 hx).1
  simp only [inner, List.mem_append, List.mem_map]
  cases h with
  | type id => exact .inl (.inl (.inl ⟨id.index, hlt ho, rfl⟩))
  | classDetail id => exact .inl (.inl (.inr ⟨id.index, hlt ho, rfl⟩))
  | functionDetail id => exact .inl (.inr ⟨id.index, hlt ho, rfl⟩)
  | typeVarDetail id => exact .inr ⟨id.index, hlt ho, rfl⟩
  | node id =>
    obtain rfl := Option.some.inj ho
    cases hh'

/-- Fewer handles have not come up when more have. -/
theorem unseen_le_of_subset {seen seen' : List Handle} (h : seen ⊆ seen') :
    g.unseen seen' ≤ g.unseen seen := by
  rw [unseen, unseen, ← List.countP_eq_length_filter, ← List.countP_eq_length_filter]
  refine List.countP_mono_left fun x _ hx => ?_
  simp only [Bool.not_eq_true', List.contains_eq_mem, decide_eq_false_iff_not] at hx ⊢
  exact fun hmem => hx (h hmem)

/-- When a handle with parts comes up first, fewer are left. -/
theorem unseen_cons_lt {h : Handle} {seen : List Handle} (hinner : h ∈ g.inner) (hnew : h ∉ seen) :
    g.unseen (h :: seen) < g.unseen seen := by
  have hsplit : g.inner.filter (fun x => !(h :: seen).contains x) =
      (g.inner.filter fun x => !seen.contains x).filter fun x => x != h := by
    rw [List.filter_filter]
    refine List.filter_congr fun x _ => ?_
    rw [List.contains_cons, Bool.not_or]
    rfl
  have hmem : h ∈ g.inner.filter fun x => !seen.contains x :=
    List.mem_filter.2 ⟨hinner, by simpa using hnew⟩
  rw [unseen, unseen, hsplit]
  refine Nat.lt_of_le_of_ne (List.length_filter_le _ _) fun heq => ?_
  have := List.length_filter_eq_length_iff.1 heq h hmem
  simp at this

/-- No more handles with parts are left than the bound of the printer allows for. -/
theorem unseen_nil_lt : g.unseen [] < g.handleLimit := by
  have hlength : g.inner.length + 2 = g.handleLimit := by
    simp [inner, handleLimit, Nat.add_assoc]
  have hle : g.unseen [] ≤ g.inner.length := List.length_filter_le _ _
  omega

/-- A walk shows an outline, and looks behind the handles that come up in it first. -/
def Walks (g : TypeGraph) (o : Outline) (seen : List Handle) (p : Walk (Option Json)) : Prop :=
  ∃ trace shown, p.run seen = (shown, trace.opened.reverse ++ seen) ∧ g.Shows o trace shown ∧
    trace.Ordered seen

/-- A walk through a list shows it item by item. -/
def WalksItems (g : TypeGraph) (items : List Outline) (seen : List Handle) (p : Walk (List Json)) :
    Prop :=
  ∃ trace values, p.run seen = (values, trace.opened.reverse ++ seen) ∧
    g.Shows (.list items) trace (some (.list values)) ∧ trace.Ordered seen

/-- A walk through a record shows it field by field. -/
def WalksFields (g : TypeGraph) (fields : List (String × Outline)) (seen : List Handle)
    (p : Walk (List (String × Json))) : Prop :=
  ∃ trace values, p.run seen = (values, trace.opened.reverse ++ seen) ∧
    g.Shows (.record fields) trace (some (.record values)) ∧ trace.Ordered seen

section Outlines

variable {handle : Handle → Walk (Option Json)}

mutual

/-- An outline is shown if every handle in it is, whatever else has come up by then. -/
theorem renderOutline_walks (o : Outline) (seen : List Handle)
    (hhandle : ∀ h, o.Mentions h → ∀ seen', seen ⊆ seen' → g.Walks (.handle h) seen' (handle h)) :
    g.Walks o seen (renderOutline handle o) := by
  match o with
  | .handle h => exact hhandle h (.handle h) seen (List.Subset.refl seen)
  | .leaf value => exact ⟨[], some value, rfl, .leaf value, trivial⟩
  | .list items =>
    obtain ⟨trace, values, hrun, hshows, hordered⟩ := renderItems_walks items seen hhandle
    refine ⟨trace, _, ?_, hshows, hordered⟩
    rw [renderOutline, StateT.run_bind, hrun]
    rfl
  | .record fields =>
    obtain ⟨trace, values, hrun, hshows, hordered⟩ := renderFields_walks fields seen hhandle
    refine ⟨trace, _, ?_, hshows, hordered⟩
    rw [renderOutline, StateT.run_bind, hrun]
    rfl

/-- A list is shown if every handle in it is. -/
theorem renderItems_walks (items : List Outline) (seen : List Handle)
    (hhandle : ∀ h, (Outline.list items).Mentions h → ∀ seen', seen ⊆ seen' →
      g.Walks (.handle h) seen' (handle h)) :
    g.WalksItems items seen (renderItems handle items) := by
  match items with
  | [] => exact ⟨[], [], rfl, .listNil, trivial⟩
  | item :: items =>
    obtain ⟨trace, shown, hrun, hshows, hordered⟩ := renderOutline_walks item seen fun h hh =>
      hhandle h (Outline.mentions_list_cons.2 (.inl hh))
    -- The rest is shown when the handles of the first item have come up.
    obtain ⟨rest, values, hrun', hshows', hordered'⟩ :=
      renderItems_walks items (trace.opened.reverse ++ seen) fun h hh seen' hsub =>
        hhandle h (Outline.mentions_list_cons.2 (.inr hh)) seen'
          fun x hx => hsub (List.mem_append_right _ hx)
    refine ⟨trace ++ rest, _, ?_, .listCons hshows hshows',
      Trace.ordered_append.2 ⟨hordered, hordered'⟩⟩
    rw [renderItems, StateT.run_bind, hrun]
    change (do
      let (values, seen') ← (renderItems handle items).run (trace.opened.reverse ++ seen)
      pure (shown.getD .null :: values, seen') : Id _) = _
    rw [hrun', Trace.opened_append, List.reverse_append, List.append_assoc]
    rfl

/-- A record is shown if every handle in it is. -/
theorem renderFields_walks (fields : List (String × Outline)) (seen : List Handle)
    (hhandle : ∀ h, (Outline.record fields).Mentions h → ∀ seen', seen ⊆ seen' →
      g.Walks (.handle h) seen' (handle h)) :
    g.WalksFields fields seen (renderFields handle fields) := by
  match fields with
  | [] => exact ⟨[], [], rfl, .recordNil, trivial⟩
  | (name, o) :: fields =>
    obtain ⟨trace, shown, hrun, hshows, hordered⟩ := renderOutline_walks o seen fun h hh =>
      hhandle h (Outline.mentions_record_cons.2 (.inl hh))
    obtain ⟨rest, values, hrun', hshows', hordered'⟩ :=
      renderFields_walks fields (trace.opened.reverse ++ seen) fun h hh seen' hsub =>
        hhandle h (Outline.mentions_record_cons.2 (.inr hh)) seen'
          fun x hx => hsub (List.mem_append_right _ hx)
    have hboth := Trace.ordered_append.2 ⟨hordered, hordered'⟩
    have hseen : rest.opened.reverse ++ (trace.opened.reverse ++ seen) =
        (Trace.opened (trace ++ rest)).reverse ++ seen := by
      rw [Trace.opened_append, List.reverse_append, List.append_assoc]
    rw [WalksFields, renderFields]
    -- The field is left out if nothing is shown of it.
    cases shown with
    | some value =>
      refine ⟨trace ++ rest, (name, value) :: values, ?_, .recordCons hshows hshows', hboth⟩
      rw [StateT.run_bind, hrun]
      change (do
        let (values, seen') ← (renderFields handle fields).run (trace.opened.reverse ++ seen)
        pure ((name, value) :: values, seen') : Id _) = _
      rw [hrun', hseen]
      rfl
    | none =>
      refine ⟨trace ++ rest, values, ?_, .recordDrop hshows hshows', hboth⟩
      rw [StateT.run_bind, hrun, ← hseen]
      exact hrun'

end

end Outlines

/-- A handle that has come up is shown by its mark, and any other by what stands behind it. -/
theorem run_renderHandle (g : TypeGraph) (fuel : Nat) (h : Handle) (seen : List Handle) :
    (g.renderHandle (fuel + 1) h).run seen =
      if seen.contains h then ((g.mark? h).map .text, seen)
      else match g.outline? h with
        | none => (some .null, h :: seen)
        | some o => (renderOutline (g.renderHandle fuel) o).run (h :: seen) := by
  change (if seen.contains h = true then pure ((g.mark? h).map .text) else do
    modify (h :: ·)
    match g.outline? h with
    | none => return some .null
    | some outline => renderOutline (g.renderHandle fuel) outline : Walk _).run seen = _
  split
  · rfl
  · cases g.outline? h <;> rfl

/-- A handle is shown if the bound allows for the handles with parts that have not come up. -/
theorem renderHandle_walks (g : TypeGraph) (fuel : Nat) (h : Handle) (seen : List Handle)
    (hfuel : g.unseen seen < fuel) : g.Walks (.handle h) seen (g.renderHandle fuel h) := by
  induction fuel generalizing h seen with
  | zero => exact absurd hfuel (Nat.not_lt_zero _)
  | succ fuel ih =>
    by_cases hseen : h ∈ seen
    · -- The handle has come up before.
      have hrun : (g.renderHandle (fuel + 1) h).run seen = ((g.mark? h).map .text, seen) := by
        rw [run_renderHandle, if_pos (by simpa using hseen)]
      refine ⟨[(h, false)], _, hrun, ?_, hseen, trivial⟩
      cases hmark : g.mark? h with
      | none =>
        refine .unmarked fun text htext => ?_
        rw [mark?_eq_some_iff.2 htext] at hmark
        cases hmark
      | some text => exact .marked (mark?_eq_some_iff.1 hmark)
    · have hnew : ¬ seen.contains h = true := by simpa using hseen
      cases ho : g.outline? h with
      | none =>
        refine ⟨[(h, true)], some .null, ?_, .unused ho, hseen, trivial⟩
        rw [run_renderHandle, if_neg hnew, ho]
        rfl
      | some o =>
        have hrun : (g.renderHandle (fuel + 1) h).run seen =
            (renderOutline (g.renderHandle fuel) o).run (h :: seen) := by
          rw [run_renderHandle, if_neg hnew, ho]
        -- A handle with parts has come up, so that fewer are left behind it.
        have hhandle : ∀ h', o.Mentions h' → ∀ seen', h :: seen ⊆ seen' →
            g.Walks (.handle h') seen' (g.renderHandle fuel h') := by
          intro h' hh' seen' hsub
          have hless := unseen_cons_lt (mem_inner_of_mentions ho hh') hseen
          have hle := g.unseen_le_of_subset hsub
          exact ih h' seen' (by omega)
        obtain ⟨trace, shown, hrun', hshows, hordered⟩ :=
          renderOutline_walks o (h :: seen) hhandle
        refine ⟨(h, true) :: trace, shown, ?_, .opened ho hshows, hseen, hordered⟩
        rw [hrun, hrun']
        simp

/-- A type is shown with all that it leads to: the walk ends with the handles that it has looked
behind, each of which came up there first; those are the handles that the type reaches, each once,
and wherever one comes up again it is shown by its mark or not at all. -/
theorem typeText_shows (g : TypeGraph) (id : TypeId) :
    ∃ trace shown, g.Shows (.type id) trace shown ∧
      (renderOutline (g.renderHandle g.handleLimit) (.type id)).run [] =
        (shown, trace.opened.reverse) ∧
      g.typeText id = (shown.getD .null).pretty ∧
      (∀ before h isFirst after, trace = before ++ (h, isFirst) :: after →
        (isFirst = true ↔ ∀ b, (h, b) ∉ before)) ∧
      trace.opened.Nodup ∧ ∀ h, h ∈ trace.opened ↔ g.Reaches (.type id) h := by
  obtain ⟨trace, shown, hrun, hshows, hordered⟩ :=
    g.renderHandle_walks g.handleLimit (.type id) [] unseen_nil_lt
  rw [List.append_nil] at hrun
  have hwalk : (renderOutline (g.renderHandle g.handleLimit) (.type id)).run [] =
      (shown, trace.opened.reverse) := by
    rw [Outline.type, renderOutline]
    exact hrun
  refine ⟨trace, shown, hshows, hwalk, ?_, fun before h isFirst after heq =>
    hordered.first_iff heq, hordered.nodup.1, hshows.mem_opened_iff hordered⟩
  rw [typeText, render, hwalk]

end TypeGraph

end TypeProbe
