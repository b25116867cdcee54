import TypeProbe.Proofs.Inference.Repeats
import TypeProbe.Proofs.Types.Made

/-!
# What the types of nodes come from

The type that is kept of a node has been worked out from the types that its parts were taken to have
(`Memory.Takes`): those that are kept of them, or the provisional one where their evaluation has
been cut off, since a guard stood in the way (`Memory.Bars`). For numbers, displays, starred
expressions, operations and subscripts `Memory.Explains` tells how. Types, what is kept of nodes and
what is known beforehand stay as they are, so what explains a type goes on doing so. The rules keep
only types that are explained (`Evaluation.lawful_rule`), and so does every checker for a file
(`Checker.Traced.explained`).

The questions that have been cut off are a parameter here: they are told by what has been asked.
-/

namespace TypeProbe

open TypeStore

/-- A guard stands in the way of a question for a node or a declaration of which nothing is kept. -/
def Memory.Bars (m : Memory) : Query → Prop
  | .node n => m.nodeTypes.lookup n = none ∧ (m.nodeGuard.enter n).1 ≠ .entered
  | .declaration d => m.declarationTypes.lookup d.node = none ∧
      (m.declarationGuard.enter d.node).1 ≠ .entered
  | _ => False

/-- Any question may have been cut off. -/
abbrev Query.Any (_ : Query) : Prop := True

/-- The type that the rules take a node to have: the one that is kept of it, the provisional one if
it has been cut off, or the unknown one if it has no value. -/
def Memory.Takes (p : Program) (cut : Query → Prop) (m : Memory) (n : NodeId) (t : TypeId) : Prop :=
  m.nodeTypes.lookup n = some t ∨ (t = .incomplete ∧ cut (.node n)) ∨
    (p.hasValue n = false ∧ t = .unknown)

/-- The type that an entry adds to the display of a list. -/
def Memory.Enters (p : Program) (cut : Query → Prop) (m : Memory) (entry : NodeId) (t : TypeId) :
    Prop :=
  ∃ type, m.store.Made [type] (TypeStore.widen type) t ∧
    match p.arena.form? entry with
    | some (.unpack expression) =>
      ∃ whole, m.Takes p cut expression whole ∧
        m.store.Made [whole] (Values.iterated p.builtins whole) type
    | some (.comprehension expression _) => m.Takes p cut expression type
    | _ => m.Takes p cut entry type

/-- The type of a literal whole number, or another one, with a sign, or of what is unknown. -/
def Memory.Signs (p : Program) (m : Memory) (op : Operator) (operand t : TypeId) : Prop :=
  m.store.Once [operand] fun s =>
    (s.isUnknown operand = true → t = .unknown) ∧
    (∀ n, s.IsNominal operand p.builtins.int none (some (.int n)) →
      (op = .subtract → m.store.Made [] (·.literal p.builtins.int (.int (Values.turned n))) t) ∧
      (op = .add → t = operand)) ∧
    (s.IsNominal operand p.builtins.int none none → m.store.Made [] (·.instanceOf p.builtins.int) t)

/-- The type of a calculation with whole numbers, or with what is unknown. -/
def Memory.Calculates (p : Program) (m : Memory) (op : Operator) (left right t : TypeId) : Prop :=
  m.store.Once [left, right] fun s =>
    (∀ l r, s.IsNominal left p.builtins.int none l → s.IsNominal right p.builtins.int none r →
      m.store.Made [] (Values.arithmetic p.builtins op 0 l r) t) ∧
    ((s.isUnknown left = true ∨
      (∃ l, s.IsNominal left p.builtins.int none l) ∧ s.isUnknown right = true) → t = .unknown)

/-- The type in a tuple that a subscript picks, if it is a literal number with a place in it. -/
def TypeStore.pickedType? (s : TypeStore) (types : List TypeId) (subscript : TypeId) :
    Option TypeId :=
  (match s.instance? subscript with
    | some (_, some (.int n)) => Expressions.pickedPlace? types.length n
    | _ => none).bind (types[·]?)

/-- The type that a subscript takes out of a tuple: the one that it picks, and the union of all if
it picks none. -/
def Memory.Picks (p : Program) (m : Memory) (types : List TypeId) (subscript t : TypeId) : Prop :=
  m.store.Once (subscript :: types) fun s =>
    s.instanceClass? subscript ≠ some p.builtins.slice →
      (∀ type, s.pickedType? types subscript = some type → t = type) ∧
      (s.pickedType? types subscript = none →
        m.store.Made types (Values.unionOrUnknown types) t)

/-- The type of a subscript of a tuple, or of what is unknown. -/
def Memory.Subscripts (p : Program) (cut : Query → Prop) (m : Memory) (items : List NodeId)
    (base t : TypeId) : Prop :=
  m.store.Once [base] fun s =>
    (s.isUnknown base = true → t = .unknown) ∧
    ∀ types, s.IsNominal base p.builtins.tuple (some types) none →
      ∃ subscript, m.Picks p types subscript t ∧
        ∀ value, items.map p.argumentValue? = [some value] → m.Takes p cut value subscript

/-- A type is taken out of another one along a path of places. -/
def Memory.Unpacks (p : Program) (m : Memory) : (path : List Nat) → (whole t : TypeId) → Prop
  | [], whole, t => t = whole
  | place :: path, whole, t => ∃ part,
      m.store.Made [whole] (Values.unpacked p.builtins whole place) part ∧ m.Unpacks p path part t

/-- The type that a variable without a type hint receives from an expression. -/
def Memory.Receives (p : Program) (cut : Query → Prop) (m : Memory) (d : Declaration)
    (t : TypeId) : Prop :=
  d.kind = .variable → d.hint = none → ∀ source, d.source = some source →
    p.hasValue source = true → ∃ whole, m.Takes p cut source whole ∧ m.Unpacks p d.path whole t

/-- The type that the rules take a declaration to give: the one that is kept of it, or the
provisional one if it has been cut off. -/
def Memory.Gives (cut : Query → Prop) (m : Memory) (d : Declaration) (t : TypeId) : Prop :=
  (d.node, t) ∈ m.declarationTypes ∨ (t = .incomplete ∧ cut (.declaration d))

/-- Whether a name is part of the construct around it, as its title or as what it imports. -/
def Program.isTitle (p : Program) (n : NodeId) : Bool :=
  match (p.arena.parent? n).bind p.arena.form? with
  | some (.function _ _ title _ _ _) | some (.classDef _ title _ _) => title == n
  | some (.parameter _ title _ _) => title == some n
  | some (.memberAccess _ member) => member == n
  | some (.argument _ keyword _) => keyword == some n
  | some (.moduleName ..) | some (.importAs ..) | some (.importFromAs ..) => true
  | _ => false

/-- The declaration that a name stands for: the one that it makes, or the latest one that comes
before it in its scope. -/
def Program.standsFor? (p : Program) (n : NodeId) (name : String) : Option Declaration :=
  (p.bindings.declaration? n).or do
    let scope := p.bindings.scopeContaining p.arena n
    let (found, ds) ← p.bindings.lookup? scope name
    if found = scope then p.latest? (ds.filter (p.precedes (p.arena.startOf n))) else none

/-- The type of a node comes from what its parts are taken to be. -/
def Memory.Explains (p : Program) (cut : Query → Prop) (m : Memory) (n : NodeId) (t : TypeId) :
    Prop :=
  match p.arena.form? n with
  | some (.name _ value) => p.isTitle n = false → ∀ d, p.standsFor? n value = some d →
      d.kind = .variable → m.Gives cut d t
  | some (.number literal) => m.store.Made [] (Values.number p.builtins literal) t
  | some (.tuple items _) => ∃ types, List.Forall₂ (m.Takes p cut) items types ∧
      m.store.Made types (·.specializedInstance p.builtins.tuple types) t
  | some (.list entries) => ∃ types item, List.Forall₂ (m.Enters p cut) entries types ∧
      m.store.Made types (Values.unionOrUnknown types) item ∧
      m.store.Made [item] (·.specializedInstance p.builtins.list [item]) t
  | some (.unpack expression) => ∃ whole, m.Takes p cut expression whole ∧
      m.store.Made [whole] (Values.iterated p.builtins whole) t
  | some (.unaryOperation op _ expression) => op ≠ .not →
      ∃ operand, m.Takes p cut expression operand ∧ m.Signs p op operand t
  | some (.binaryOperation op _ left right _) =>
      op ≠ .and → op ≠ .or → op.isComparison = false →
      ∃ l r, m.Takes p cut left l ∧ m.Takes p cut right r ∧ m.Calculates p op l r t
  | some (.index base items) => ∃ type, m.Takes p cut base type ∧ m.Subscripts p cut items type t
  | _ => True

/-! ## What stays -/

/-- A memory in which all types of another one have stayed, with those that it keeps of nodes and of
declarations. -/
structure Memory.Retains (m m' : Memory) : Prop where
  /-- Types stay. -/
  within : m.store.Within m'.store
  /-- The types of nodes stay. -/
  nodeTypes : ∀ n t, m.nodeTypes.lookup n = some t → m'.nodeTypes.lookup n = some t
  /-- The types of declarations stay. -/
  declarationTypes : m.declarationTypes ⊆ m'.declarationTypes

/-- A memory that retains another one, and in which what is kept besides is explained: the types of
nodes, and those of declarations, which are among those that count. -/
structure Memory.Advances (p : Program) (cut : Query → Prop) (counts : Declaration → Prop)
    (m m' : Memory) : Prop extends m.Retains m' where
  /-- What is known beforehand stays. -/
  foreknows : m'.store.Foreknows
  /-- The types of further nodes are explained. -/
  explains : ∀ n t, m'.nodeTypes.lookup n = some t →
    m.nodeTypes.lookup n = some t ∨ m'.Explains p cut n t
  /-- The types of further declarations are received. -/
  receives : ∀ n t, (n, t) ∈ m'.declarationTypes →
    (n, t) ∈ m.declarationTypes ∨ ∃ d, counts d ∧ d.node = n ∧ m'.Receives p cut d t

/-- A memory that advances another one with known declarations, if what is known beforehand is there
in that. -/
def Memory.Upholds (p : Program) (cut : Query → Prop) (m m' : Memory) : Prop :=
  m.store.Foreknows → m.Advances p cut p.bindings.Knows m'

namespace Memory

variable {p : Program} {cut : Query → Prop} {counts counts' : Declaration → Prop}
  {m m' m'' : Memory} {n : NodeId} {t : TypeId} {types : List TypeId}

namespace Retains

/-- A memory retains itself. -/
theorem refl (m : Memory) : m.Retains m := ⟨.refl _, fun _ _ h => h, List.Subset.refl _⟩

/-- What retains twice retains. -/
theorem trans (h : m.Retains m') (h' : m'.Retains m'') : m.Retains m'' where
  within := h.within.trans h'.within
  nodeTypes n t hn := h'.nodeTypes n t (h.nodeTypes n t hn)
  declarationTypes := List.Subset.trans h.declarationTypes h'.declarationTypes

end Retains

section Mono

variable (hretains : m.Retains m')
include hretains

/-- What a node is taken to be it is taken to be later on. -/
theorem Takes.mono (h : m.Takes p cut n t) : m'.Takes p cut n t :=
  h.imp_left (hretains.nodeTypes n t)

/-- What an entry adds to the display of a list it adds later on. -/
theorem Enters.mono (h : m.Enters p cut n t) : m'.Enters p cut n t := by
  obtain ⟨type, hwiden, hentry⟩ := h
  refine ⟨type, hwiden.mono hretains.within, ?_⟩
  split at hentry
  · obtain ⟨whole, htakes, hmade⟩ := hentry
    exact ⟨whole, htakes.mono hretains, hmade.mono hretains.within⟩
  · exact hentry.mono hretains
  · exact hentry.mono hretains

/-- The types of entries of the display of a list are explained later on. -/
theorem forall₂_enters {entries : List NodeId} (h : List.Forall₂ (m.Enters p cut) entries types) :
    List.Forall₂ (m'.Enters p cut) entries types := h.imp fun _ _ => Enters.mono hretains

/-- The types of items are explained later on. -/
theorem forall₂_takes {items : List NodeId} (h : List.Forall₂ (m.Takes p cut) items types) :
    List.Forall₂ (m'.Takes p cut) items types := h.imp fun _ _ => Takes.mono hretains

/-- The type of a number with a sign is explained later on. -/
theorem Signs.mono {op : Operator} {operand : TypeId} (h : m.Signs p op operand t) :
    m'.Signs p op operand t :=
  Once.mono h hretains.within fun _ ⟨hunknown, hliteral, hplain⟩ =>
    ⟨hunknown, fun n hn => (hliteral n hn).imp_left fun hturned hop =>
      (hturned hop).mono hretains.within, fun hint => (hplain hint).mono hretains.within⟩

/-- The type of a calculation is explained later on. -/
theorem Calculates.mono {op : Operator} {left right : TypeId}
    (h : m.Calculates p op left right t) : m'.Calculates p op left right t :=
  Once.mono h hretains.within fun _ ⟨hint, hunknown⟩ =>
    ⟨fun l r hl hr => (hint l r hl hr).mono hretains.within, hunknown⟩

/-- The type that is taken out of a tuple is explained later on. -/
theorem Picks.mono {subscript : TypeId} (h : m.Picks p types subscript t) :
    m'.Picks p types subscript t :=
  Once.mono h hretains.within fun _ hpicks hslice =>
    (hpicks hslice).imp_right fun hunion hnone => (hunion hnone).mono hretains.within

/-- The type of a subscript is explained later on. -/
theorem Subscripts.mono {items : List NodeId} {base : TypeId}
    (h : m.Subscripts p cut items base t) : m'.Subscripts p cut items base t := by
  refine Once.mono h hretains.within fun _ ⟨hunknown, htuple⟩ => ⟨hunknown, fun types hbase => ?_⟩
  obtain ⟨subscript, hpicks, hvalue⟩ := htuple types hbase
  exact ⟨subscript, hpicks.mono hretains, fun value h => (hvalue value h).mono hretains⟩

/-- What is taken out of a type along a path is taken out later on. -/
theorem Unpacks.mono {path : List Nat} {whole : TypeId} (h : m.Unpacks p path whole t) :
    m'.Unpacks p path whole t := by
  induction path generalizing whole with
  | nil => exact h
  | cons place path ih =>
    obtain ⟨part, hmade, hrest⟩ := h
    exact ⟨part, hmade.mono hretains.within, ih hrest⟩

/-- What a declaration receives it has received later on. -/
theorem Receives.mono {d : Declaration} (h : m.Receives p cut d t) : m'.Receives p cut d t := by
  intro hkind hhint source hsource hvalue
  obtain ⟨whole, htakes, hunpacks⟩ := h hkind hhint source hsource hvalue
  exact ⟨whole, htakes.mono hretains, hunpacks.mono hretains⟩

/-- What a declaration gives it gives later on. -/
theorem Gives.mono {d : Declaration} (h : m.Gives cut d t) : m'.Gives cut d t :=
  h.imp_left fun hmem => hretains.declarationTypes hmem

/-- What explains the type of a node goes on doing so. -/
theorem Explains.mono (h : m.Explains p cut n t) : m'.Explains p cut n t := by
  unfold Explains at h ⊢
  split at h
  · exact fun htitle d hd hkind => (h htitle d hd hkind).mono hretains
  · exact h.mono hretains.within
  · obtain ⟨types, htypes, hmade⟩ := h
    exact ⟨types, forall₂_takes hretains htypes, hmade.mono hretains.within⟩
  · obtain ⟨types, item, htypes, hitem, hmade⟩ := h
    exact ⟨types, item, forall₂_enters hretains htypes, hitem.mono hretains.within,
      hmade.mono hretains.within⟩
  · obtain ⟨whole, htakes, hmade⟩ := h
    exact ⟨whole, htakes.mono hretains, hmade.mono hretains.within⟩
  · intro hop
    obtain ⟨operand, htakes, hsigns⟩ := h hop
    exact ⟨operand, htakes.mono hretains, hsigns.mono hretains⟩
  · intro hand hor hcomparison
    obtain ⟨l, r, hl, hr, hcalculates⟩ := h hand hor hcomparison
    exact ⟨l, r, hl.mono hretains, hr.mono hretains, hcalculates.mono hretains⟩
  · obtain ⟨type, htakes, hsubscripts⟩ := h
    exact ⟨type, htakes.mono hretains, hsubscripts.mono hretains⟩
  · trivial

end Mono

namespace Advances

/-- A memory in which what is known beforehand is there advances itself. -/
theorem refl (h : m.store.Foreknows) : m.Advances p cut counts m :=
  ⟨.refl m, h, fun _ _ => .inl, fun _ _ => .inl⟩

/-- What advances twice advances. -/
theorem trans (h : m.Advances p cut counts m') (h' : m'.Advances p cut counts m'') :
    m.Advances p cut counts m'' where
  toRetains := h.toRetains.trans h'.toRetains
  foreknows := h'.foreknows
  explains n t hn := by
    rcases h'.explains n t hn with hold | hnew
    · exact (h.explains n t hold).imp_right (Explains.mono h'.toRetains)
    · exact .inr hnew
  receives n t hn := by
    rcases h'.receives n t hn with hold | hnew
    · exact (h.receives n t hold).imp_right fun ⟨d, hd, hnode, hreceives⟩ =>
        ⟨d, hd, hnode, hreceives.mono h'.toRetains⟩
    · exact .inr hnew

/-- More declarations may count. -/
theorem mono (h : m.Advances p cut counts m') (hcounts : ∀ d, counts d → counts' d) :
    m.Advances p cut counts' m' :=
  ⟨h.toRetains, h.foreknows, h.explains, fun n t hn => (h.receives n t hn).imp_right
    fun ⟨d, hd, hreceives⟩ => ⟨d, hcounts d hd, hreceives⟩⟩

end Advances

namespace Upholds

/-- Changes that leave types and what is kept of nodes and declarations uphold. -/
theorem of_within (hwithin : m.store.Within m'.store) (hnodes : m'.nodeTypes = m.nodeTypes)
    (hdeclarations : m'.declarationTypes = m.declarationTypes)
    (hclasses : ∀ d : ClassId, d.In Builtins.foreknown.2 → m'.store.class? d = m.store.class? d) :
    m.Upholds p cut m' := fun hm => {
  within := hwithin
  nodeTypes := fun _ _ hn => hnodes ▸ hn
  declarationTypes := fun _ hn => hdeclarations ▸ hn
  foreknows := ⟨fun id t ht => hwithin _ _ (hm.types id t ht), fun d c hc =>
    (hclasses d (Array.getElem?_eq_some_iff.1 hc).1).trans (hm.classes d c hc)⟩
  explains := fun _ _ hn => .inl (hnodes ▸ hn)
  receives := fun _ _ hn => .inl (hdeclarations ▸ hn) }

/-- What spares the classes upholds. -/
theorem of_spares (h : m.Spares m') : m.Upholds p cut m' :=
  .of_within h.store.get? h.nodeTypes h.declarationTypes fun d _ => by rw [class?, class?, h.spared]

/-- What upholds twice upholds. -/
theorem trans (h : m.Upholds p cut m') (h' : m'.Upholds p cut m'') : m.Upholds p cut m'' :=
  fun hm => (h hm).trans (h' (h hm).foreknows)

end Upholds

end Memory

instance (p : Program) (cut : Query → Prop) : Tolerant (Memory.Upholds p cut) where
  spares := .of_spares
  trans := .trans

end TypeProbe
