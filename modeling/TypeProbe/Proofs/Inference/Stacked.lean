import TypeProbe.Proofs.Inference.Markers

/-!
# Function definitions that are joined

A function definition that is decorated with nothing but `overload` is kept with its own type before
its signature is looked at, and with what it is joined to when it is complete. If the function
definition before it is an overload, it is joined to what is kept of that (`Memory.Joined`): to all
that is combined there, or, if it was met while the signature of the one before it was looked at, to
the own type of that alone (`DefinitionTypes.JoinedTo`).
-/

namespace TypeProbe

open Definitions TypeStore

/-! ## Chains of definitions -/

/-- The function definition before one of the same name in the same scope, if a function definition
is what comes before it. -/
def Program.previousFunction? (p : Program) (n : NodeId) : Option NodeId :=
  ((previousDeclaration? p n (p.definitionName n)).filter (·.kind == .function)).map (·.node)

/-- A function definition that is decorated with `overload` at most, as are all that come before
it. -/
inductive Program.Stacked (p : Program) : NodeId → Prop
  | first {n : NodeId} (hn : p.isFunction n = true)
    (hnames : ∀ e ∈ p.decoratorsOf n, ∃ d, p.NamesOverload e d)
    (hprevious : p.previousFunction? n = none) : Stacked p n
  | next {n n' : NodeId} (hn : p.isFunction n = true)
    (hnames : ∀ e ∈ p.decoratorsOf n, ∃ d, p.NamesOverload e d)
    (hprevious : p.previousFunction? n = some n') (h : Stacked p n') : Stacked p n

/-- It is a function definition. -/
theorem Program.Stacked.isFunction {p : Program} {n : NodeId} (h : p.Stacked n) :
    p.isFunction n = true := by
  cases h with
  | first hn => exact hn
  | next hn => exact hn

/-- Its decorators are names of `overload`. -/
theorem Program.Stacked.names {p : Program} {n : NodeId} (h : p.Stacked n) :
    ∀ e ∈ p.decoratorsOf n, ∃ d, p.NamesOverload e d := by
  cases h with
  | first _ hnames => exact hnames
  | next _ hnames => exact hnames

/-- The function definition before one that is decorated with `overload` at most is so too. -/
theorem Program.Stacked.previous {p : Program} {n n' : NodeId} (h : p.Stacked n)
    (hn : p.previousFunction? n = some n') : p.Stacked n' := by
  cases h with
  | first _ _ hprevious =>
    rw [hprevious] at hn
    cases hn
  | next _ _ hprevious h =>
    rw [hprevious] at hn
    cases hn
    exact h

/-- No function definition comes before itself. -/
theorem Program.Stacked.previous_ne {p : Program} {n n' : NodeId} (h : p.Stacked n)
    (hn : p.previousFunction? n = some n') : n' ≠ n := by
  -- Down the chain, which comes to an end.
  induction h generalizing n' with
  | first _ _ hprevious =>
    rw [hprevious] at hn
    cases hn
  | next _ _ hprevious _ ih =>
    rintro rfl
    cases hprevious.symm.trans hn
    exact ih hprevious rfl

namespace TypeStore

variable {s s' : TypeStore} {type : TypeId}

/-- The types that a type combines: those of an overloaded function, or itself. -/
def combined (s : TypeStore) (type : TypeId) : List TypeId :=
  match s.shape? type with
  | some (.overloaded overloads) => overloads
  | _ => [type]

/-- The overloads that a type brings with it for the function after it. -/
def overloads? (s : TypeStore) (type : TypeId) : Option (List TypeId) :=
  match s.shape? type with
  | some (.overloaded overloads) =>
    match overloads.getLast? with
    | some last => if isOverload s last then some overloads else none
    | none => none
  | some (.function ..) => if isOverload s type then some [type] else none
  | _ => none

/-- The type of a function is one. -/
theorem shape?_of_mark? {b : Bool} (h : s.mark? type = some b) :
    ∃ detail bound arguments, s.shape? type = some (.function detail bound arguments) := by
  obtain ⟨k, hk, -⟩ := Option.map_eq_some_iff.1 h
  obtain ⟨f, hf, -⟩ := Option.map_eq_some_iff.1 hk
  obtain ⟨d, hd, -⟩ := Option.bind_eq_some_iff.1 hf
  obtain ⟨t, ht, hdetail⟩ := Option.bind_eq_some_iff.1 hd
  rw [shape?, ht]
  unfold TypeRecord.function? at hdetail
  split at hdetail
  · rename_i hshape
    exact ⟨_, _, _, congrArg some hshape⟩
  · cases hdetail

/-- The type of a function is there. -/
theorem isSome_get?_of_mark? {b : Bool} (h : s.mark? type = some b) : (s.get? type).isSome := by
  obtain ⟨_, _, _, hshape⟩ := shape?_of_mark? h
  obtain ⟨record, hrecord, -⟩ := Option.map_eq_some_iff.1 hshape
  exact Option.isSome_of_eq_some hrecord

/-- The type of a function combines itself. -/
theorem combined_of_mark? {b : Bool} (h : s.mark? type = some b) : s.combined type = [type] := by
  obtain ⟨detail, bound, arguments, hshape⟩ := shape?_of_mark? h
  rw [combined, hshape]

/-- What a type combines stays. -/
theorem Stays.combined_eq (h : s.Stays s') (htype : (s.get? type).isSome) :
    s'.combined type = s.combined type := by
  obtain ⟨t, ht⟩ := Option.isSome_iff_exists.1 htype
  have hshape : s.shape? type = some t.shape := shape?_of_get? ht
  rw [combined, combined, hshape, h.shape? hshape]

end TypeStore

/-! ## What is kept of them -/

namespace DefinitionTypes

/-- The types of a definition are those of a function that comes last in what it is joined to. -/
structure Formed (t : DefinitionTypes) (s : TypeStore) : Prop where
  /-- The function is known. -/
  mark : (s.mark? t.defined).isSome
  /-- What it is joined to is there. -/
  decorated : (s.get? t.decorated).isSome
  /-- The function comes last in it. -/
  last : (s.combined t.decorated).getLast? = some t.defined

/-- The types of a function are joined to those of the one before it: if that is an overload, to all
that it is joined to, or to its own type alone if it has been overtaken. -/
def JoinedTo (overtaken : Prop) (t' t : DefinitionTypes) (s : TypeStore) : Prop :=
  s.mark? t'.defined = some false ∧ t.decorated = t.defined ∨
  s.mark? t'.defined = some true ∧ (s.get? t'.decorated).isSome ∧
    (s.shape? t.decorated = some (.overloaded (s.combined t'.decorated ++ [t.defined])) ∨
      overtaken ∧ s.shape? t.decorated = some (.overloaded [t'.defined, t.defined]))

variable {s s' : TypeStore} {t t' : DefinitionTypes} {overtaken : Prop}

/-- Types stay formed. -/
theorem Formed.mono (h : t.Formed s) (hstays : s.Stays s') : t.Formed s' := by
  obtain ⟨b, hmark⟩ := Option.isSome_iff_exists.1 h.mark
  obtain ⟨record, hrecord⟩ := Option.isSome_iff_exists.1 h.decorated
  exact ⟨Option.isSome_of_eq_some (hstays.mark? hmark),
    Option.isSome_of_eq_some (hstays.get? _ _ hrecord),
    (hstays.combined_eq h.decorated).symm ▸ h.last⟩

/-- Types stay joined. -/
theorem JoinedTo.mono (h : t'.JoinedTo overtaken t s) (hstays : s.Stays s') :
    t'.JoinedTo overtaken t s' := by
  rcases h with ⟨hmark, hplain⟩ | ⟨hmark, hdecorated, hshape⟩
  · exact .inl ⟨hstays.mark? hmark, hplain⟩
  · obtain ⟨record, hrecord⟩ := Option.isSome_iff_exists.1 hdecorated
    refine .inr ⟨hstays.mark? hmark, Option.isSome_of_eq_some (hstays.get? _ _ hrecord), ?_⟩
    rw [hstays.combined_eq hdecorated]
    exact hshape.imp hstays.shape? fun h => ⟨h.1, hstays.shape? h.2⟩

/-- A function that has been joined to the own type of another one has overtaken it if that is
joined to others later on. -/
theorem JoinedTo.overtakes {defined decorated : TypeId}
    (h : JoinedTo overtaken ⟨defined, defined⟩ t s) (hovertaken : overtaken)
    (hdecorated : (s.get? decorated).isSome) : JoinedTo overtaken ⟨defined, decorated⟩ t s := by
  refine h.imp_right fun ⟨hmark, _, hshape⟩ => ⟨hmark, hdecorated, .inr ⟨hovertaken, ?_⟩⟩
  rw [TypeStore.combined_of_mark? hmark] at hshape
  exact hshape.elim id And.right

/-- A function brings what it is joined to with it for the one after it, if it is an overload. -/
theorem Formed.overloads?_eq (h : t.Formed s) {b : Bool} (hmark : s.mark? t.defined = some b) :
    s.overloads? t.decorated = if b then some (s.combined t.decorated) else none := by
  have hlast := h.last
  have hoverload : isOverload s t.defined = b := by rw [TypeStore.isOverload_eq, hmark]; rfl
  unfold TypeStore.combined at hlast ⊢
  unfold TypeStore.overloads?
  split at hlast
  · rename_i overloads hshape
    rw [hshape]
    dsimp only
    rw [hlast]
    dsimp only
    rw [hoverload]
  · rename_i hother
    -- What is not combined is the type of the function itself.
    have hself : t.decorated = t.defined := Option.some.inj hlast
    obtain ⟨detail, bound, arguments, hshape⟩ := TypeStore.shape?_of_mark? hmark
    rw [hself, hshape]
    dsimp only
    rw [hoverload]

/-- What a function is joined to is there. -/
theorem JoinedTo.isSome_get? (h : t'.JoinedTo overtaken t s) (ht : (s.get? t.defined).isSome) :
    (s.get? t.decorated).isSome := by
  have hshape : ∀ {shape}, s.shape? t.decorated = some shape → (s.get? t.decorated).isSome := by
    intro shape hshape
    obtain ⟨record, hrecord, -⟩ := Option.map_eq_some_iff.1 hshape
    exact Option.isSome_of_eq_some hrecord
  rcases h with ⟨-, hplain⟩ | ⟨-, -, hall | ⟨-, hown⟩⟩
  · exact hplain ▸ ht
  · exact hshape hall
  · exact hshape hown

/-- Types that are joined are formed, if those that they may be joined to are. -/
theorem JoinedTo.formed (h : t'.JoinedTo overtaken t s) (ht : (s.mark? t.defined).isSome)
    (hdecorated : (s.get? t.decorated).isSome) : t.Formed s := by
  refine ⟨ht, hdecorated, ?_⟩
  rcases h with ⟨-, hplain⟩ | ⟨-, -, hshape | ⟨-, hshape⟩⟩
  · obtain ⟨b, hmark⟩ := Option.isSome_iff_exists.1 ht
    rw [hplain, TypeStore.combined_of_mark? hmark]
    rfl
  · rw [TypeStore.combined, hshape]
    exact List.getLast?_concat
  · rw [TypeStore.combined, hshape]
    rfl

end DefinitionTypes

/-- A function definition has been joined to the one before it. -/
structure Memory.Joined (p : Program) (cut : NodeId → Prop) (overtaken : NodeId → NodeId → Prop)
    (m : Memory) (n : NodeId) (t : DefinitionTypes) : Prop where
  /-- The function of its own type is that of the definition. It is an overload if a decorator says
  so, and only cut off decorators do not. -/
  core : ∃ b, m.store.core? t.defined = some ⟨some n, b⟩ ∧ (b = true → p.decoratorsOf n ≠ []) ∧
    (b = false → ∀ e ∈ p.decoratorsOf n, cut e)
  /-- What it is joined to is there. -/
  decorated : (m.store.get? t.decorated).isSome
  /-- If there is none before it, it is not joined to anything. -/
  first : p.previousFunction? n = none → t.decorated = t.defined
  /-- It is joined to what is kept of the one before it. -/
  next : ∀ n', p.previousFunction? n = some n' → ∃ t', m.functions.lookup n' = some t' ∧
    t'.JoinedTo (overtaken n' n) t m.store

/-- A memory in which names of `overload` are read as they should be, and the types of functions
that are decorated with it at most are formed. -/
structure Memory.Orderly (p : Program) (cut : NodeId → Prop) (m : Memory) : Prop
    extends m.Reads p cut where
  /-- The types of such functions are formed. -/
  formed : ∀ n, p.Stacked n → ∀ t, m.functions.lookup n = some t → t.Formed m.store

/-- A memory in which all types of another one have stayed, and what is kept of functions that are
decorated with `overload` at most. -/
structure Memory.Holds (p : Program) (m m' : Memory) : Prop where
  /-- Types stay. -/
  store : m.store.Stays m'.store
  /-- What is kept of such functions stays. -/
  functions : ∀ n, p.Stacked n → ∀ t, m.functions.lookup n = some t →
    m'.functions.lookup n = some t

/-- A memory that holds what another one does, and in which such functions have been joined of which
something is newly kept. -/
structure Memory.Joins (p : Program) (cut : NodeId → Prop) (overtaken : NodeId → NodeId → Prop)
    (m m' : Memory) : Prop extends m.Holds p m', m'.Orderly p cut where
  /-- Such functions have been joined. -/
  joined : ∀ n, p.Stacked n → m.functions.lookup n = none → ∀ t,
    m'.functions.lookup n = some t → m'.Joined p cut overtaken n t

/-- An orderly memory is changed to one that joins functions. -/
def Memory.Sustains (p : Program) (cut : NodeId → Prop) (overtaken : NodeId → NodeId → Prop)
    (m m' : Memory) : Prop := m.Orderly p cut → m.Joins p cut overtaken m'

section Memory

variable {p : Program} {cut : NodeId → Prop} {overtaken : NodeId → NodeId → Prop}
  {m m' m'' : Memory} {n : NodeId} {t : DefinitionTypes}

namespace Memory

/-- What is held twice is held. -/
theorem Holds.trans (h : m.Holds p m') (h' : m'.Holds p m'') : m.Holds p m'' :=
  ⟨h.store.trans h'.store, fun n hn t ht => h'.functions n hn t (h.functions n hn t ht)⟩

/-- Whether the function is an overload is known. -/
theorem Joined.isSome_mark? (h : m.Joined p cut overtaken n t) :
    (m.store.mark? t.defined).isSome := by
  obtain ⟨b, hcore, -⟩ := h.core
  rw [TypeStore.mark?, hcore]
  rfl

/-- A function stays joined. -/
theorem Joined.mono (h : m.Joined p cut overtaken n t) (hn : p.Stacked n)
    (hholds : m.Holds p m') : m'.Joined p cut overtaken n t := by
  obtain ⟨b, hcore, hb⟩ := h.core
  obtain ⟨record, hrecord⟩ := Option.isSome_iff_exists.1 h.decorated
  refine ⟨⟨b, hholds.store.core? hcore, hb⟩,
    Option.isSome_of_eq_some (hholds.store.get? _ _ hrecord), h.first, fun n' hn' => ?_⟩
  obtain ⟨t', ht', hjoined⟩ := h.next n' hn'
  exact ⟨t', hholds.functions n' (hn.previous hn') t' ht', hjoined.mono hholds.store⟩

/-- The types of a function that has been joined are formed. -/
theorem Joined.formed (h : m.Joined p cut overtaken n t) : t.Formed m.store := by
  have hsome := h.isSome_mark?
  cases hprevious : p.previousFunction? n with
  | none =>
    obtain ⟨b, hmark⟩ := Option.isSome_iff_exists.1 hsome
    refine ⟨hsome, h.decorated, ?_⟩
    rw [h.first hprevious, TypeStore.combined_of_mark? hmark]
    rfl
  | some n' =>
    obtain ⟨t', -, hjoined⟩ := h.next n' hprevious
    exact hjoined.formed hsome h.decorated

/-- Memories stay orderly while functions are joined. -/
theorem Orderly.formed_of_joined (h : m.Orderly p cut) (hholds : m.Holds p m')
    (hjoined : ∀ n, p.Stacked n → m.functions.lookup n = none → ∀ t,
      m'.functions.lookup n = some t → m'.Joined p cut overtaken n t) :
    ∀ n, p.Stacked n → ∀ t, m'.functions.lookup n = some t → t.Formed m'.store := by
  intro n hn t ht
  cases hkept : m.functions.lookup n with
  | none => exact (hjoined n hn hkept t ht).formed
  | some t₀ =>
    obtain rfl := Option.some.inj ((hholds.functions n hn t₀ hkept).symm.trans ht)
    exact (h.formed n hn _ hkept).mono hholds.store

/-- A memory joins nothing where the same is kept of functions that are decorated with `overload` at
most. -/
theorem Joins.of_lookup (h : m.Orderly p cut) (hstore : m.store.Stays m'.store)
    (hfunctions : ∀ n, p.Stacked n → m'.functions.lookup n = m.functions.lookup n)
    (hreads : m'.Reads p cut) : m.Joins p cut overtaken m' :=
  { hreads with
    store := hstore
    functions := fun n hn t ht => (hfunctions n hn).trans ht
    formed := fun n hn t ht => (h.formed n hn t ((hfunctions n hn).symm.trans ht)).mono hstore
    joined := fun n hn hfree t ht => by
      rw [hfunctions n hn, hfree] at ht
      cases ht }

/-- A memory joins nothing where the same is kept of functions. -/
theorem Joins.of_functions (h : m.Orderly p cut) (hstore : m.store.Stays m'.store)
    (hfunctions : m'.functions = m.functions) (hreads : m'.Reads p cut) :
    m.Joins p cut overtaken m' :=
  .of_lookup h hstore (fun n _ => congrArg (List.lookup n) hfunctions) hreads

/-- Functions are joined by one change after the other. -/
theorem Joins.trans (h : m.Joins p cut overtaken m') (h' : m'.Joins p cut overtaken m'') :
    m.Joins p cut overtaken m'' :=
  { h.toHolds.trans h'.toHolds, h'.toOrderly with
    joined := fun n hn hfree t ht => by
      -- What is kept in between has been joined by then, and is not kept anew.
      cases hkept : m'.functions.lookup n with
      | none => exact h'.joined n hn hkept t ht
      | some t₀ =>
        obtain rfl := Option.some.inj ((h'.functions n hn t₀ hkept).symm.trans ht)
        exact (h.joined n hn hfree _ hkept).mono hn h'.toHolds }

/-- An orderly memory with the store of another one, that keeps what that does of functions. -/
structure Rests (p : Program) (cut : NodeId → Prop) (m m' : Memory) : Prop
    extends m'.Orderly p cut where
  /-- The store is the same. -/
  store : m'.store = m.store
  /-- What is kept of functions is the same. -/
  functions : m'.functions = m.functions

/-- Rests are rests of rests. -/
theorem Rests.trans (h : m.Rests p cut m')
    (h' : m'.Rests p cut m'') : m.Rests p cut m'' :=
  ⟨h'.toOrderly, h'.store.trans h.store, h'.functions.trans h.functions⟩

/-- What rests has joined nothing. -/
theorem Rests.joins (hm : m.Orderly p cut) (h : m.Rests p cut m') :
    m.Joins p cut overtaken m' :=
  .of_functions hm (h.store ▸ .refl _) h.functions h.toReads

/-- Where something is kept of a function, it stays so, and functions that follow it are newly kept
only if they have overtaken it. -/
def Minds (p : Program) (overtaken : NodeId → NodeId → Prop) (n : NodeId) (m m' : Memory) :
    Prop :=
  m.functions.lookup n ≠ none → m'.functions.lookup n ≠ none ∧
    ∀ k, p.Stacked k → p.previousFunction? k = some n → m.functions.lookup k = none →
      m'.functions.lookup k ≠ none → overtaken n k

end Memory

instance : Tolerant (Memory.Sustains p cut overtaken) where
  spares h hm := .of_functions hm (.of_keeps h.store) h.functions
    (hm.toReads.mono (.of_keeps h.store) h.declarationTypes h.nodeTypes)
  trans h h' hm := (h hm).trans (h' (h hm).toOrderly)

instance : Tolerant (Memory.Minds p overtaken n) where
  spares h hm := by
    rw [h.functions]
    exact ⟨hm, fun _ _ _ hnone hsome => absurd hnone hsome⟩
  trans {_ m' _} h h' hm := by
    obtain ⟨hm', hmind⟩ := h hm
    obtain ⟨hm'', hmind'⟩ := h' hm'
    refine ⟨hm'', fun k hk hprevious hnone hsome => ?_⟩
    -- It has been kept by the one change or by the other.
    by_cases hmiddle : m'.functions.lookup k = none
    · exact hmind' k hk hprevious hmiddle hsome
    · exact hmind k hk hprevious hnone hmiddle

end Memory

end TypeProbe
