import TypeProbe.Inference.Checker
import TypeProbe.Proofs.Types.Values

/-!
# What is kept between questions

A memory is sound (`Memory.Sound`) if its store is and it keeps only handles of its store. Answering
a question makes the memory grow (`Memory.Grows`): no type and no definition is forgotten, and the
guards are left as they were found. `Memory.energy` counts what may still be begun: the places that
the guards have left, and the definitions that have not been looked at. It never grows, and it gets
less whenever a guard is entered or a definition is kept for the first time.
-/

namespace TypeProbe

/-- The handles of the types of a definition are handles of the store. -/
def DefinitionTypes.In (t : DefinitionTypes) (s : TypeStore) : Prop :=
  t.defined.In s ∧ t.decorated.In s

/-- Handles stay handles. -/
theorem DefinitionTypes.In.mono {t : DefinitionTypes} {s s' : TypeStore} (ht : t.In s)
    (h : s.Grows s') : t.In s' := ⟨ht.1.mono h, ht.2.mono h⟩

namespace Memory

/-- A memory with a sound store, which keeps only handles of it. -/
structure Sound (b : Builtins) (m : Memory) : Prop where
  /-- The store is sound. -/
  store : m.store.Sound
  /-- What is known beforehand is there. -/
  builtins : b.In m.store
  /-- The types of nodes are there. -/
  nodeTypes : ∀ e ∈ m.nodeTypes, e.2.In m.store
  /-- The types of declarations are there. -/
  declarationTypes : ∀ e ∈ m.declarationTypes, e.2.In m.store
  /-- The types of classes are there. -/
  classes : ∀ e ∈ m.classes, e.2.In m.store
  /-- The types of functions are there. -/
  functions : ∀ e ∈ m.functions, e.2.In m.store
  /-- The types that functions return are there, and so are the functions. -/
  returnTypes : ∀ e ∈ m.returnTypes, e.1.In m.store ∧ e.2.In m.store
  /-- The type variables of definitions are there. -/
  scopedTypeVars : ∀ e ∈ m.scopedTypeVars, e.1.1.In m.store ∧ e.2.In m.store
  /-- The properties are there, and so are the functions that they call. -/
  getters : ∀ e ∈ m.getters, e.1.In m.store ∧ e.2.In m.store

/-- A memory in which nothing of another one is forgotten, with the same guards. -/
structure Grows (m m' : Memory) : Prop where
  /-- The store has grown. -/
  store : m.store.Grows m'.store
  /-- The classes that have been looked at have been. -/
  classes : ∀ n, (m.classes.lookup n).isSome → (m'.classes.lookup n).isSome
  /-- The functions that have been looked at have been. -/
  functions : ∀ n, (m.functions.lookup n).isSome → (m'.functions.lookup n).isSome
  /-- The nodes whose types are being worked out are the same. -/
  nodeGuard : m'.nodeGuard = m.nodeGuard
  /-- The declarations whose types are being worked out are the same. -/
  declarationGuard : m'.declarationGuard = m.declarationGuard
  /-- The functions whose returned types are being worked out are the same. -/
  returnGuard : m'.returnGuard = m.returnGuard
  /-- No type is kept of a node meanwhile whose type is being worked out. -/
  active : ∀ n ∈ m.nodeGuard.active, m'.nodeTypes.lookup n = m.nodeTypes.lookup n

variable {b : Builtins} {m m' m'' : Memory}

namespace Grows

/-- A memory has grown from itself. -/
theorem refl (m : Memory) : m.Grows m :=
  ⟨.refl _, fun _ h => h, fun _ h => h, rfl, rfl, rfl, fun _ _ => rfl⟩

/-- What has grown twice has grown. -/
theorem trans (h : m.Grows m') (h' : m'.Grows m'') : m.Grows m'' where
  store := h.store.trans h'.store
  classes n hn := h'.classes n (h.classes n hn)
  functions n hn := h'.functions n (h.functions n hn)
  nodeGuard := h'.nodeGuard.trans h.nodeGuard
  declarationGuard := h'.declarationGuard.trans h.declarationGuard
  returnGuard := h'.returnGuard.trans h.returnGuard
  active n hn := (h'.active n (h.nodeGuard ▸ hn)).trans (h.active n hn)

/-- A memory grows with its store. -/
theorem withStore {s : TypeStore} (h : m.store.Grows s) : m.Grows { m with store := s } :=
  { refl m with store := h }

end Grows

/-- A memory stays sound when its store grows. -/
theorem Sound.withStore {s : TypeStore} (h : m.Sound b) (hs : s.Sound) (hgrows : m.store.Grows s) :
    Sound b { m with store := s } where
  store := hs
  builtins := h.builtins.mono hgrows
  nodeTypes e he := (h.nodeTypes e he).mono hgrows
  declarationTypes e he := (h.declarationTypes e he).mono hgrows
  classes e he := (h.classes e he).mono hgrows
  functions e he := (h.functions e he).mono hgrows
  returnTypes e he := ⟨(h.returnTypes e he).1.mono hgrows, (h.returnTypes e he).2.mono hgrows⟩
  scopedTypeVars e he :=
    ⟨(h.scopedTypeVars e he).1.mono hgrows, (h.scopedTypeVars e he).2.mono hgrows⟩
  getters e he := ⟨(h.getters e he).1.mono hgrows, (h.getters e he).2.mono hgrows⟩

/-! ## Energy -/

/-- How many places the guards have left. -/
def room (m : Memory) : Nat :=
  (m.nodeGuard.limit - m.nodeGuard.depth) +
    (m.declarationGuard.limit - m.declarationGuard.depth) +
    (m.returnGuard.limit - m.returnGuard.depth)

/-- How many of the first nodes have no types of a definition yet. -/
def openCount (size : Nat) (kept : List (NodeId × DefinitionTypes)) : Nat :=
  (List.range size).countP fun n => (kept.lookup n).isNone

/-- How much may still be begun on a tree of the given size. -/
def energy (size : Nat) (m : Memory) : Nat :=
  m.room + openCount size m.classes + openCount size m.functions

/-- Memories with the same guards leave as many places. -/
theorem Grows.room_eq (h : m.Grows m') : m'.room = m.room := by
  unfold room
  rw [h.nodeGuard, h.declarationGuard, h.returnGuard]

section OpenCount

variable {kept kept' : List (NodeId × DefinitionTypes)}

/-- Where the types of a definition stay, none is open that was not. -/
theorem isNone_of_isNone (h : ∀ n, (kept.lookup n).isSome → (kept'.lookup n).isSome) {n : NodeId}
    (hn : (kept'.lookup n).isNone) : (kept.lookup n).isNone := by
  cases hlookup : kept.lookup n with
  | none => rfl
  | some types =>
    have hkept := h n (by rw [hlookup]; rfl)
    rw [Option.isNone_iff_eq_none.1 hn] at hkept
    cases hkept

/-- Where the types of definitions stay, no more are open. -/
theorem openCount_le (size : Nat)
    (h : ∀ n, (kept.lookup n).isSome → (kept'.lookup n).isSome) :
    openCount size kept' ≤ openCount size kept :=
  List.countP_mono_left fun _ _ hn => isNone_of_isNone h hn

/-- Where the types of a further definition are kept, fewer are open. -/
theorem openCount_lt {size : Nat} {n : NodeId}
    (h : ∀ n, (kept.lookup n).isSome → (kept'.lookup n).isSome) (hn : n < size)
    (hopen : kept.lookup n = none) (hkept : (kept'.lookup n).isSome) :
    openCount size kept' < openCount size kept := by
  obtain ⟨front, back, hrange⟩ := List.append_of_mem (List.mem_range.2 hn)
  have hle : ∀ ns : List NodeId, ns.countP (fun n => (kept'.lookup n).isNone) ≤
      ns.countP fun n => (kept.lookup n).isNone :=
    fun ns => List.countP_mono_left fun _ _ hn => isNone_of_isNone h hn
  have hfront := hle front
  have hback := hle back
  unfold openCount
  rw [hrange, List.countP_append, List.countP_append,
    List.countP_cons_of_neg (by simpa using hkept),
    List.countP_cons_of_pos (by simp [hopen])]
  omega

end OpenCount

/-- Energy does not grow. -/
theorem Grows.energy_le (h : m.Grows m') (size : Nat) : m'.energy size ≤ m.energy size := by
  have hclasses := openCount_le size h.classes
  have hfunctions := openCount_le size h.functions
  unfold energy
  rw [h.room_eq]
  omega

/-- Looking at a class for the first time takes energy. -/
theorem Grows.energy_lt_of_class {size : Nat} {n : NodeId} (h : m.Grows m') (hn : n < size)
    (hopen : m.classes.lookup n = none) (hkept : (m'.classes.lookup n).isSome) :
    m'.energy size < m.energy size := by
  have hclasses := openCount_lt h.classes hn hopen hkept
  have hfunctions := openCount_le size h.functions
  unfold energy
  rw [h.room_eq]
  omega

/-- Looking at a function for the first time takes energy. -/
theorem Grows.energy_lt_of_function {size : Nat} {n : NodeId} (h : m.Grows m') (hn : n < size)
    (hopen : m.functions.lookup n = none) (hkept : (m'.functions.lookup n).isSome) :
    m'.energy size < m.energy size := by
  have hclasses := openCount_le size h.classes
  have hfunctions := openCount_lt h.functions hn hopen hkept
  unfold energy
  rw [h.room_eq]
  omega

end Memory

end TypeProbe
