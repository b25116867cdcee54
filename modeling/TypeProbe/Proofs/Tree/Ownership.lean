import Mathlib.Data.List.Nodup
import TypeProbe.Proofs.Tree.Arena

/-!
# Who the nodes of a growing arena belong to

A parser builds nodes and later makes them children of others. Between two steps it holds the nodes
that have no parent yet on a stack of `Item`s, which also keeps offsets of the text. `Owned` says
that the arena and the stack account for every node: parents and children agree, and a node without
a parent is held. The one exception are decorators that were let go for a missing parameter list
(`Arena.LetsGo`), which the arena still shows (`Arena.LosesDecorators`).

`Owned.add` is what a new node preserves, with the nodes let go as a parameter.
-/

namespace TypeProbe

/-- What a parser holds between two steps. -/
inductive Item where
  /-- An offset. -/
  | mark (offset : Nat)
  /-- A node that is no decorator. -/
  | node (id : NodeId)
  /-- A decorator. -/
  | decorator (id : NodeId)

namespace Item

/-- The node of an item. -/
def id? : Item → Option NodeId
  | mark _ => none
  | node id => some id
  | decorator id => some id

/-- The item of a node with the given form. -/
def ofForm (form : Form) (id : NodeId) : Item :=
  if form.kind = .decorator then .decorator id else .node id

/-- Whether the node of an item is of the kind that the item says. -/
def Fits (a : Arena) : Item → Prop
  | mark _ => True
  | node id => a.kind? id ≠ some .decorator
  | decorator id => a.kind? id = some .decorator

@[simp] theorem id?_ofForm (form : Form) (id : NodeId) : (ofForm form id).id? = some id := by
  unfold ofForm
  split <;> rfl

/-- The item of a new node says of which kind it is. -/
theorem fits_ofForm {a : Arena} {start stop : Nat} {form : Form} :
    (ofForm form a.size).Fits (a.add start stop form).2 := by
  unfold ofForm
  split
  · simpa [Fits, Arena.kind?_add]
  · simpa [Fits, Arena.kind?_add]

/-- An item goes on to say of which kind its node is when another one is added. -/
theorem Fits.add {a : Arena} {item : Item} {start stop : Nat} {form : Form} (h : item.Fits a)
    (hlt : ∀ id, item.id? = some id → id < a.size) : item.Fits (a.add start stop form).2 := by
  cases item with
  | mark => trivial
  | node id => simpa [Fits, Arena.kind?_add, Nat.ne_of_lt (hlt id rfl)] using h
  | decorator id => simpa [Fits, Arena.kind?_add, Nat.ne_of_lt (hlt id rfl)] using h

end Item

/-- The nodes on a stack, the last first. -/
def held (L : List Item) : List NodeId := L.filterMap Item.id?

/-- The last node on a stack, as an item. -/
def topItem? : List Item → Option Item
  | [] => none
  | .mark _ :: L => topItem? L
  | item :: _ => some item

/-- Whether the last node on a stack is no decorator. -/
def Settled (L : List Item) : Prop := ∀ id, topItem? L ≠ some (.decorator id)

section Stack

variable {n : Nat} {id : NodeId} {L : List Item}

@[simp] theorem held_nil : held [] = [] := rfl

@[simp] theorem held_mark : held (.mark n :: L) = held L := rfl

@[simp] theorem held_node : held (.node id :: L) = id :: held L := rfl

@[simp] theorem held_decorator : held (.decorator id :: L) = id :: held L := rfl

@[simp] theorem topItem?_mark : topItem? (.mark n :: L) = topItem? L := rfl

@[simp] theorem topItem?_node : topItem? (.node id :: L) = some (.node id) := rfl

@[simp] theorem topItem?_decorator : topItem? (.decorator id :: L) = some (.decorator id) := rfl

@[simp] theorem settled_nil : Settled [] := nofun

@[simp] theorem settled_mark : Settled (.mark n :: L) ↔ Settled L := .rfl

@[simp] theorem settled_node : Settled (.node id :: L) := nofun

/-- What is put on a stack decides its last node unless there is none in it. -/
theorem topItem?_append_congr {K : List Item} (S : List Item) (h : topItem? K = topItem? L) :
    topItem? (S ++ K) = topItem? (S ++ L) := by
  induction S with
  | nil => exact h
  | cons item S ih =>
    cases item with
    | mark => exact ih
    | node => rfl
    | decorator => rfl

end Stack

namespace Arena

/-- The last node of an arena's decorators before a function whose parameter list is missing: the
name of the function comes next, and an error node stands around the name alone. -/
def LosesDecorators (a : Arena) (i : NodeId) : Prop :=
  a.kind? i = some .decorator ∧
    ∃ e, a.form? e = some (.error .missingFunctionParameterList (some (i + 1)))

/-- A new node is the one around the name of a function whose parameter list is missing, and the
decorators before the function end with the given one. -/
def LetsGo (a : Arena) (form : Form) (i : NodeId) : Prop :=
  a.kind? i = some .decorator ∧ form = .error .missingFunctionParameterList (some (i + 1))

section Add

variable {a : Arena} {start stop : Nat} {form : Form}

/-- Parents and children go on to agree when a node is added around nodes without a parent. -/
theorem linked_add (h : ∀ c p, a.parent? c = some p ↔ c ∈ a.children p)
    (hfree : ∀ c ∈ form.children, c < a.size ∧ a.parent? c = none) (c p : NodeId) :
    (a.add start stop form).2.parent? c = some p ↔
      c ∈ (a.add start stop form).2.children p := by
  rw [parent?_add, children_add]
  by_cases hp : p = a.size
  · subst hp
    rw [if_pos rfl]
    constructor
    · intro hc
      split at hc
      · exact (‹_ ∧ _›).1
      · exact absurd (lt_size_of_mem_children ((h c _).1 hc)) (Nat.lt_irrefl _)
    · exact fun hc => if_pos ⟨hc, (hfree c hc).1⟩
  · rw [if_neg hp, ← h]
    split
    · rename_i hc
      rw [(hfree c hc.1).2]
      simpa using Ne.symm hp
    · exact .rfl

/-- A new node has no parent. -/
theorem parent?_add_size : (a.add start stop form).2.parent? a.size = none := by
  rw [parent?_add, if_neg fun hc => Nat.lt_irrefl _ hc.2]
  cases hparent : a.parent? a.size with
  | none => rfl
  | some p => exact absurd (lt_size_of_parent? hparent) (Nat.lt_irrefl _)

/-- A node that is no child of the new one keeps its parent. -/
theorem parent?_add_of_notMem {i : NodeId} (hi : i ∉ form.children) :
    (a.add start stop form).2.parent? i = a.parent? i := by
  rw [parent?_add, if_neg fun hc => hi hc.1]

/-- Decorators are lost after a node is added if they were before or are let go for it. -/
theorem losesDecorators_add_iff (hlt : a.ChildrenFirst)
    (hchild : ∀ c ∈ form.children, c < a.size) {i : NodeId} :
    (a.add start stop form).2.LosesDecorators i ↔ a.LosesDecorators i ∨ a.LetsGo form i := by
  constructor
  · rintro ⟨hkind, e, he⟩
    rw [form?_add] at he
    -- The name of the function is older than the new node, and so is the decorator before it.
    have hold : i + 1 < a.size → a.kind? i = some .decorator := by
      intro hnext
      rwa [kind?_add, if_neg (Nat.ne_of_lt (Nat.lt_of_succ_lt hnext))] at hkind
    split at he
    · obtain rfl := Option.some.inj he
      exact .inr ⟨hold (hchild _ (List.mem_singleton.2 rfl)), rfl⟩
    · have hmem : i + 1 ∈ a.children e := by
        rw [children_eq, he]
        exact List.mem_singleton.2 rfl
      exact .inl ⟨hold (Nat.lt_trans (hlt e _ hmem) (lt_size_of_mem_children hmem)), e, he⟩
  · rintro (⟨hkind, e, he⟩ | ⟨hkind, rfl⟩)
    · refine ⟨?_, e, ?_⟩
      · rw [kind?_add, if_neg (Nat.ne_of_lt (lt_size_of_kind? hkind)), hkind]
      · rw [form?_add, if_neg (Nat.ne_of_lt (lt_size_of_form? he)), he]
    · refine ⟨?_, a.size, ?_⟩
      · rw [kind?_add, if_neg (Nat.ne_of_lt (lt_size_of_kind? hkind)), hkind]
      · rw [form?_add, if_pos rfl]

/-- The last node held is a decorator just if the new node is one. -/
theorem topItem?_ofForm_iff {L : List Item} {i : NodeId} :
    topItem? (.ofForm form a.size :: L) = some (.decorator i) ↔
      i + 1 = (a.add start stop form).2.size ∧
        (a.add start stop form).2.kind? i = some .decorator := by
  rw [size_add, kind?_add, Item.ofForm]
  constructor
  · split
    · rintro ⟨⟩
      simpa
    · simp
  · rintro ⟨hi, hd⟩
    obtain rfl : i = a.size := Nat.succ_inj.1 hi
    simp only [if_true, Option.some.injEq] at hd
    rw [if_pos hd, topItem?_decorator]

end Add

end Arena

/-- Every node of an arena has a parent, is held on the stack, or is a decorator of a function
whose parameter list is missing. -/
structure Owned (a : Arena) (L : List Item) : Prop where
  /-- Parents and children agree. -/
  linked : ∀ c p, a.parent? c = some p ↔ c ∈ a.children p
  /-- Children come before their parents. -/
  lt : a.ChildrenFirst
  /-- No child occurs twice. -/
  nodup : ∀ p, (a.children p).Nodup
  /-- No node is held twice. -/
  held_nodup : (held L).Nodup
  /-- The nodes that are held have no parent. -/
  held_free : ∀ i ∈ held L, i < a.size ∧ a.parent? i = none
  /-- What has no parent and is not held is a lost decorator. -/
  free : ∀ i < a.size, a.parent? i = none →
    i ∈ held L ∨ (a.kind? i = some .decorator ∧ ∃ j, a.LosesDecorators j)
  /-- Lost decorators never get a parent. -/
  lost : ∀ i, a.LosesDecorators i → a.parent? i = none ∧ i ∉ held L
  /-- Items say whether their node is a decorator. -/
  fits : ∀ item ∈ L, item.Fits a
  /-- The last node held is a decorator just if the last node made is one. -/
  top : ∀ i, topItem? L = some (.decorator i) ↔ i + 1 = a.size ∧ a.kind? i = some .decorator

namespace Owned

variable {a : Arena} {L S : List Item}

/-- The arena without nodes has none to account for. -/
theorem empty : Owned Arena.empty [] where
  linked c p := by simp [Arena.parent?, Arena.children, Arena.get?, Arena.empty]
  lt p c hc := by simp [Arena.children, Arena.get?, Arena.empty] at hc
  nodup p := by simp [Arena.children, Arena.get?, Arena.empty]
  held_nodup := .nil
  held_free := nofun
  free i hi := absurd hi (Nat.not_lt_zero i)
  lost i hi := by simp [Arena.LosesDecorators, Arena.kind?, Arena.get?, Arena.empty] at hi
  fits := nofun
  top i := by simp [topItem?, Arena.kind?, Arena.get?, Arena.empty]

/-- Offsets may be put on the stack and taken from it. -/
theorem congr (h : Owned a L) (hheld : held S = held L) (htop : topItem? S = topItem? L)
    (hfits : ∀ item ∈ S, item.Fits a) : Owned a S where
  linked := h.linked
  lt := h.lt
  nodup := h.nodup
  held_nodup := hheld ▸ h.held_nodup
  held_free := hheld ▸ h.held_free
  free := hheld ▸ h.free
  lost := hheld ▸ h.lost
  fits := hfits
  top := htop ▸ h.top

/-- A new node takes its children from the stack. Other nodes may be let go only as decorators of a
function whose parameter list is missing. -/
theorem add (h : Owned a S) {start stop : Nat} {form : Form} {lost : List NodeId}
    (hheld : held S = form.children.reverse ++ (lost ++ held L)) (hfits : ∀ item ∈ L, item ∈ S)
    (hlost : ∀ i ∈ lost, a.kind? i = some .decorator ∧ ∃ j, a.LetsGo form j)
    (hgone : ∀ i, a.LetsGo form i → i ∈ lost) :
    Owned (a.add start stop form).2 (.ofForm form a.size :: L) := by
  -- What was held becomes a child, is let go or stays on the stack, and only one of these.
  have hchild : ∀ c ∈ form.children, c < a.size ∧ a.parent? c = none := fun c hc =>
    h.held_free c (hheld ▸ List.mem_append_left _ (List.mem_reverse.2 hc))
  have hrest : ∀ i ∈ lost ++ held L, i < a.size ∧ a.parent? i = none := fun i hi =>
    h.held_free i (hheld ▸ List.mem_append_right _ hi)
  obtain ⟨hchildren, hothers, hapart⟩ := List.nodup_append.1 (hheld ▸ h.held_nodup)
  have hkept : ∀ i ∈ lost ++ held L, i ∉ form.children := fun i hi hc =>
    hapart i (List.mem_reverse.2 hc) i hi rfl
  obtain ⟨-, hheldL, hlostL⟩ := List.nodup_append.1 hothers
  have hheld' : held (.ofForm form a.size :: L) = a.size :: held L := by
    rw [held, List.filterMap_cons_some (Item.id?_ofForm form a.size)]
    rfl
  have hloses : ∀ i, (a.add start stop form).2.LosesDecorators i ↔
      a.LosesDecorators i ∨ a.LetsGo form i := fun i =>
    Arena.losesDecorators_add_iff h.lt fun c hc => (hchild c hc).1
  refine ⟨Arena.linked_add h.linked hchild, fun p c hc => ?_, fun p => ?_, ?_, fun i hi => ?_,
    fun i hi hfree => ?_, fun i hi => ?_, fun item hitem => ?_, fun i => Arena.topItem?_ofForm_iff⟩
  · rw [Arena.children_add] at hc
    split at hc
    · exact (‹p = a.size› ▸ (hchild c hc).1)
    · exact h.lt p c hc
  · rw [Arena.children_add]
    split
    · exact List.nodup_reverse.1 hchildren
    · exact h.nodup p
  · rw [hheld', List.nodup_cons]
    exact ⟨fun hmem => Nat.lt_irrefl _ (hrest _ (List.mem_append_right _ hmem)).1, hheldL⟩
  · rw [hheld'] at hi
    rw [Arena.size_add]
    rcases List.mem_cons.1 hi with rfl | hi
    · exact ⟨Nat.lt_succ_self _, Arena.parent?_add_size⟩
    · have hmem := List.mem_append_right lost hi
      rw [Arena.parent?_add_of_notMem (hkept i hmem)]
      exact ⟨Nat.lt_succ_of_lt (hrest i hmem).1, (hrest i hmem).2⟩
  · rw [hheld']
    rw [Arena.parent?_add] at hfree
    rw [Arena.size_add] at hi
    rcases Nat.lt_succ_iff_lt_or_eq.1 hi with hlt | rfl
    · rw [Arena.kind?_add, if_neg (Nat.ne_of_lt hlt)]
      split at hfree
      · cases hfree
      · rcases h.free i hlt hfree with hmem | ⟨hd, j, hj⟩
        · rw [hheld, List.mem_append, List.mem_append] at hmem
          rcases hmem with hc | hl | hL
          · exact absurd (And.intro (List.mem_reverse.1 hc) hlt) ‹_›
          · obtain ⟨hd, j, hj⟩ := hlost i hl
            exact .inr ⟨hd, j, (hloses j).2 (.inr hj)⟩
          · exact .inl (List.mem_cons_of_mem _ hL)
        · exact .inr ⟨hd, j, (hloses j).2 (.inl hj)⟩
    · exact .inl List.mem_cons_self
  · -- A lost decorator is older than the new node, none of its children, and not held.
    suffices hgoes : i < a.size ∧ a.parent? i = none ∧ i ∉ form.children ∧ i ∉ held L by
      obtain ⟨hlt, hfree, hc, hL⟩ := hgoes
      rw [Arena.parent?_add_of_notMem hc, hheld']
      exact ⟨hfree, fun hmem => (List.mem_cons.1 hmem).elim (Nat.ne_of_lt hlt) hL⟩
    rcases (hloses i).1 hi with hi | hi
    · obtain ⟨hfree, hunheld⟩ := h.lost i hi
      rw [hheld] at hunheld
      refine ⟨Arena.lt_size_of_kind? hi.1, hfree, fun hc => hunheld ?_, fun hL => hunheld ?_⟩
      · exact List.mem_append_left _ (List.mem_reverse.2 hc)
      · exact List.mem_append_right _ (List.mem_append_right _ hL)
    · have hmem := List.mem_append_left (held L) (hgone i hi)
      exact ⟨(hrest i hmem).1, (hrest i hmem).2, hkept i hmem,
        fun hL => hlostL i (hgone i hi) i hL rfl⟩
  · rcases List.mem_cons.1 hitem with rfl | hitem
    · exact Item.fits_ofForm
    · refine (h.fits item (hfits item hitem)).add fun id hid => ?_
      have hmem : id ∈ held L := List.mem_filterMap.2 ⟨item, hitem, hid⟩
      exact (hrest id (List.mem_append_right _ hmem)).1

/-- Parentheses around a node leave who the nodes belong to. -/
theorem widened (h : Owned a L) (i : NodeId) (start stop : Nat) :
    Owned (a.widened i start stop) L := by
  have hloses : ∀ j, (a.widened i start stop).LosesDecorators j ↔ a.LosesDecorators j := by
    intro j
    simp only [Arena.LosesDecorators, Arena.kind?_widened, Arena.form?_widened_error]
  refine ⟨fun c p => ?_, fun p => ?_, fun p => ?_, h.held_nodup, fun j hj => ?_, fun j hj => ?_,
    fun j => ?_, fun item hitem => ?_, fun j => ?_⟩
  · rw [Arena.parent?_widened, Arena.children_widened, h.linked]
  · rw [Arena.children_widened]
    exact h.lt p
  · rw [Arena.children_widened]
    exact h.nodup p
  · rw [Arena.size_widened, Arena.parent?_widened]
    exact h.held_free j hj
  · rw [Arena.size_widened] at hj
    simp only [Arena.parent?_widened, Arena.kind?_widened, hloses]
    exact h.free j hj
  · rw [hloses, Arena.parent?_widened]
    exact h.lost j
  · have hfit := h.fits item hitem
    cases item with
    | mark => trivial
    | node id => simpa only [Item.Fits, Arena.kind?_widened] using hfit
    | decorator id => simpa only [Item.Fits, Arena.kind?_widened] using hfit
  · rw [Arena.size_widened, Arena.kind?_widened]
    exact h.top j

end Owned

end TypeProbe
