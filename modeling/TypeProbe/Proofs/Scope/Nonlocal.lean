import TypeProbe.Proofs.Scope.Agreement
import TypeProbe.Proofs.Scope.Passage

/-!
# Names that stand for those of functions around

Where a function says that a name stands for that of a function around, a value given to the name
behind that is declared by the nearest function around that has the name. Which functions have it is
looked up at that time, and a function has the names that it has declared by then. So the result
depends on the order of the text: a function that declares the name later on does not receive the
declaration, and where none has declared it yet the declaration stays where it is made
(`ParsedText.ofText_rebinds`).

`Bindings.target_eq_iff` says which scope receives a declaration at the time it is made. Since
nothing is taken back and no node declares twice, that time can be told from the bindings in the end
(`Bindings.Declared`): what was there then is what has been declared before
(`Declared.mem_listed_iff`).
-/

namespace TypeProbe

namespace Bindings

/-- A scope stands in another one. -/
def StandsIn (b : Bindings) (i o : ScopeId) : Prop := ∃ s, b.scope? i = some s ∧ s.parent = some o

/-- A scope is around another one. -/
def Around (b : Bindings) : ScopeId → ScopeId → Prop := Relation.TransGen b.StandsIn

/-- A scope is the nearest one around another one of which something holds. -/
structure IsNearest (b : Bindings) (P : ScopeId → Prop) (i j : ScopeId) : Prop where
  /-- It is around. -/
  around : b.Around i j
  /-- It is one of those. -/
  holds : P j
  /-- Those in between are not. -/
  nearest : ∀ k, b.Around i k → b.Around k j → ¬ P k

/-- The declarations that were made before that of a node, the last one first. -/
def before (b : Bindings) (t : NodeId) : List (NodeId × Declaration) :=
  (b.declarations.dropWhile (·.1 != t)).tail

/-- A scope is that of a function that declared a name before a node was declared. -/
def DeclaresBefore (b : Bindings) (t : NodeId) (x : String) (j : ScopeId) : Prop :=
  b.IsFunction j ∧ ∃ d ∈ b.listed j x, (d.node, d) ∈ b.before t

/-- A scope is that of a function that has a name. -/
def FunctionHas (b : Bindings) (x : String) (j : ScopeId) : Prop :=
  b.IsFunction j ∧ b.listed j x ≠ []

variable {b b' : Bindings} {i j k o : ScopeId} {x : String} {P : ScopeId → Prop}

/-- A scope stands in one other scope. -/
theorem StandsIn.unique (h : b.StandsIn i j) (h' : b.StandsIn i k) : j = k := by
  obtain ⟨s, hs, hj⟩ := h
  obtain ⟨s', hs', hk⟩ := h'
  obtain rfl := Option.some.inj (hs.symm.trans hs')
  exact Option.some.inj (hj.symm.trans hk)

/-- What is around a scope comes before it. -/
theorem Tidy.lt_of_around (htidy : b.Tidy) (h : b.Around i j) : j < i := by
  have hstep : ∀ {i o}, b.StandsIn i o → o < i := fun ⟨s, hs, ho⟩ => htidy.outward _ s hs _ ho
  induction h with
  | single h => exact hstep h
  | tail _ h ih => exact Nat.lt_trans (hstep h) ih

/-- Of two scopes around a third one, one is around the other. -/
theorem Around.total (hj : b.Around i j) (hk : b.Around i k) :
    j = k ∨ b.Around j k ∨ b.Around k j := by
  obtain ⟨o, ho, hoj⟩ := Relation.TransGen.head'_iff.1 hj
  obtain ⟨o', ho', hok⟩ := Relation.TransGen.head'_iff.1 hk
  obtain rfl := ho.unique ho'
  have hunique : Relator.RightUnique b.StandsIn := fun _ _ _ h h' => h.unique h'
  rcases Relation.ReflTransGen.total_of_right_unique hunique hoj hok with h | h
  · exact (Relation.reflTransGen_iff_eq_or_transGen.1 h).imp Eq.symm .inl
  · exact (Relation.reflTransGen_iff_eq_or_transGen.1 h).imp id .inr

/-- There is one nearest scope. -/
theorem IsNearest.unique (h : b.IsNearest P i j) (h' : b.IsNearest P i k) : j = k := by
  rcases h.around.total h'.around with heq | hjk | hkj
  · exact heq
  · exact absurd h.holds (h'.nearest j h.around hjk)
  · exact absurd h'.holds (h.nearest k h'.around hkj)

/-- What is around a scope is around the scopes in it. -/
theorem around_iff (h : b.StandsIn i o) : b.Around i j ↔ j = o ∨ b.Around o j := by
  constructor
  · intro hj
    obtain ⟨o', ho', hoj⟩ := Relation.TransGen.head'_iff.1 hj
    obtain rfl := h.unique ho'
    exact Relation.reflTransGen_iff_eq_or_transGen.1 hoj
  · rintro (rfl | hj)
    · exact .single h
    · exact .head h hj

/-- Whether a function has a name can be looked up. -/
theorem functionHas_iff (htidy : b.Tidy) {s : Scope} (hs : b.scope? i = some s) (x : String) :
    b.FunctionHas x i ↔ (s.kind == .function && (s.symbols.get? x).isSome) = true := by
  have hlisted : b.listed i x = (s.symbols.get? x).getD [] := by
    rw [listed, hs]
    rfl
  rw [FunctionHas, hlisted, Bool.and_eq_true, beq_iff_eq]
  refine and_congr ⟨?_, fun hkind => ⟨s, hs, hkind⟩⟩ ?_
  · rintro ⟨s', hs', hkind⟩
    obtain rfl := Option.some.inj (hs.symm.trans hs')
    exact hkind
  · cases hget : s.symbols.get? x with
    | none => simp
    | some declarations =>
      have hne : declarations ≠ [] := fun heq => htidy.declared i s x hs (heq ▸ hget)
      simp [hne]

/-- The scope that another one stands in is the nearest one around it. -/
theorem IsNearest.here (htidy : b.Tidy) (h : b.StandsIn i o) (ho : P o) : b.IsNearest P i o := by
  refine ⟨.single h, ho, fun k hk hko => ?_⟩
  have hlt := htidy.lt_of_around hko
  rcases (around_iff h).1 hk with rfl | hk
  · exact absurd hlt (Nat.lt_irrefl _)
  · exact absurd (htidy.lt_of_around hk) (Nat.not_lt.2 (Nat.le_of_lt hlt))

/-- The nearest one is further out if it is not the scope that another one stands in. -/
theorem IsNearest.outward (h : b.StandsIn i o) (ho : ¬ P o) (hj : b.IsNearest P o j) :
    b.IsNearest P i j := by
  refine ⟨.head h hj.around, hj.holds, fun k hk hkj => ?_⟩
  rcases (around_iff h).1 hk with rfl | hk
  · exact ho
  · exact hj.nearest k hk hkj

/-- Going outwards from a scope finds the nearest function around that has a name. -/
theorem functionWith_spec (htidy : b.Tidy) (x : String) {s : Scope} (hs : b.scope? i = some s)
    {fuel : Nat} (hfuel : i ≤ fuel) :
    match Binder.functionWith b x fuel s.parent with
    | some j => b.IsNearest (b.FunctionHas x) i j
    | none => ∀ j, b.Around i j → ¬ b.FunctionHas x j := by
  -- On the fuel, which goes down with the scopes: what a scope stands in comes before it.
  induction fuel generalizing i s with
  | zero =>
    intro j hj
    exact absurd (Nat.lt_of_lt_of_le (htidy.lt_of_around hj) hfuel) (Nat.not_lt_zero j)
  | succ fuel ih =>
    cases hparent : s.parent with
    | none =>
      intro j hj
      obtain ⟨o, ⟨s', hs', ho⟩, -⟩ := Relation.TransGen.head'_iff.1 hj
      obtain rfl := Option.some.inj (hs.symm.trans hs')
      rw [hparent] at ho
      cases ho
    | some o =>
      have hstands : b.StandsIn i o := ⟨s, hs, hparent⟩
      have hlt : o < i := htidy.outward i s hs o hparent
      obtain ⟨around, hso⟩ := exists_scope? (Nat.lt_trans hlt (lt_size_of_scope? hs))
      unfold Binder.functionWith
      rw [hso]
      by_cases hhas : b.FunctionHas x o
      · have htrue := (functionHas_iff htidy hso x).1 hhas
        simp only [htrue, if_true]
        exact .here htidy hstands hhas
      · -- It is none of those, so the nearest one is further out.
        have hfalse : ¬ (around.kind == .function && (around.symbols.get? x).isSome) = true :=
          fun htrue => hhas ((functionHas_iff htidy hso x).2 htrue)
        simp only [hfalse]
        have hspec := ih hso (Nat.le_of_lt_succ (Nat.lt_of_lt_of_le hlt hfuel))
        revert hspec
        cases Binder.functionWith b x fuel around.parent with
        | none =>
          intro hnone j hj
          rcases (around_iff hstands).1 hj with rfl | hj
          · exact hhas
          · exact hnone j hj
        | some j => exact .outward hstands hhas

/-- A scope receives the declarations of a name that is said to stand for that of a function around:
the nearest function around that has the name does, or else the scope itself. -/
def Receives (b : Bindings) (P : ScopeId → Prop) (i j : ScopeId) : Prop :=
  b.IsNearest P i j ∨ j = i ∧ ∀ k, b.Around i k → ¬ P k

/-- A declaration of such a name is listed where it is received. -/
theorem target_eq_iff (htidy : b.Tidy) (hnonlocal : b.HasNonlocal i x)
    (hglobal : ∀ s, b.scope? i = some s → x ∉ s.globals) (j : ScopeId) :
    j = b.target i x ↔ b.Receives (b.FunctionHas x) i j := by
  obtain ⟨s, hs, hmem⟩ := hnonlocal
  have htarget : b.target i x =
      (Binder.functionWith b x (b.scopes.size + 1) s.parent).getD i := by
    have hnone : s.globals.contains x = false := by simpa using hglobal s hs
    have hsome : s.nonlocals.contains x = true := by simpa using hmem
    unfold target
    rw [hs, Option.getD_some]
    dsimp only
    rw [hnone, hsome]
    rfl
  have hfuel : i ≤ b.scopes.size + 1 := Nat.le_succ_of_le (Nat.le_of_lt (lt_size_of_scope? hs))
  have hspec := functionWith_spec htidy x hs hfuel
  rw [htarget]
  revert hspec
  cases Binder.functionWith b x (b.scopes.size + 1) s.parent with
  | some k =>
    intro hnearest
    constructor
    · rintro rfl
      exact .inl hnearest
    · rintro (h | ⟨-, hnone⟩)
      · exact h.unique hnearest
      · exact absurd hnearest.holds (hnone k hnearest.around)
  | none =>
    intro hnone
    constructor
    · rintro rfl
      exact .inr ⟨rfl, hnone⟩
    · rintro (h | ⟨rfl, -⟩)
      · exact absurd h.holds (hnone j h.around)
      · rfl

/-- Without scopes there is nothing out of order. -/
theorem tidy_empty : Bindings.empty.Tidy :=
  ⟨fun i s hs => by simp [scope?, Bindings.empty] at hs,
    fun i s x hs => by simp [scope?, Bindings.empty] at hs⟩

/-! ## Looking back at the time of a declaration -/

/-- What is around a scope that was there already was around it. -/
theorem Grows.around_iff (h : b.Grows b') (htidy : b.Tidy) (hi : i < b.scopes.size) :
    b'.Around i j ↔ b.Around i j := by
  have hstep : ∀ {k o}, k < b.scopes.size → (b'.StandsIn k o ↔ b.StandsIn k o) := by
    intro k o hk
    obtain ⟨s, hs⟩ := exists_scope? hk
    obtain ⟨s', hs', hg⟩ := h.scopes k s hs
    simp only [StandsIn, hs, hs', Option.some.injEq, exists_eq_left', hg.parent]
  have hless : ∀ {k o}, k < b.scopes.size → b'.StandsIn k o → o < b.scopes.size := by
    intro k o hk ho
    obtain ⟨s, hs, hparent⟩ := (hstep hk).1 ho
    exact Nat.lt_trans (htidy.outward k s hs o hparent) hk
  constructor
  · intro hj
    induction hj using Relation.TransGen.head_induction_on with
    | single hj => exact .single ((hstep hi).1 hj)
    | head ho _ ih => exact .head ((hstep hi).1 ho) (ih (hless hi ho))
  · have hmono : ∀ k o, b.StandsIn k o → b'.StandsIn k o := fun k o ho => by
      obtain ⟨s, hs, -⟩ := id ho
      exact (hstep (lt_size_of_scope? hs)).2 ho
    intro hj
    induction hj with
    | single hj => exact .single (hmono _ _ hj)
    | tail _ hj ih => exact ih.tail (hmono _ _ hj)

/-- A declaration has been made of a node once only, where it was received by a scope. -/
structure Declared (b : Bindings) (x : String) (d : Declaration) (o : ScopeId) (b₁ : Bindings) :
    Prop where
  /-- What was there before. -/
  earlier : Bindings.empty.Grows b₁
  /-- The scope that received it. -/
  lt_size : o < b₁.scopes.size
  /-- What came after. -/
  later : (b₁.declaredAt o x d).Grows b
  /-- No node declares twice. -/
  nodup : (b.declarations.map (·.1)).Nodup

namespace Declared

variable {d e : Declaration} {b₁ : Bindings} (h : b.Declared x d o b₁)
include h

/-- What is listed was listed then, or has been declared later on, by other nodes. -/
theorem exists_newer : ∃ newer, b.declarations = newer ++ (d.node, d) :: b₁.declarations ∧
    (∀ i y, ∀ e ∈ b.listed i y, e ∈ (b₁.declaredAt o x d).listed i y ∨ (e.node, e) ∈ newer) ∧
    ∀ p ∈ newer, ∀ q ∈ (d.node, d) :: b₁.declarations, p.1 ≠ q.1 := by
  obtain ⟨newer, hnewer, hlisted⟩ := h.later.declarations
  refine ⟨newer, hnewer, hlisted, fun p hp q hq => ?_⟩
  have hnodup := h.nodup
  rw [hnewer, List.map_append] at hnodup
  exact (List.nodup_append.1 hnodup).2.2 _ (List.mem_map_of_mem hp) _ (List.mem_map_of_mem hq)

/-- The node has not declared before. -/
theorem ne_node {q : NodeId × Declaration} (hq : q ∈ b₁.declarations) : q.1 ≠ d.node := by
  obtain ⟨newer, hnewer, -, -⟩ := h.exists_newer
  have hnodup := h.nodup
  rw [hnewer, List.map_append, List.map_cons] at hnodup
  intro heq
  refine (List.nodup_cons.1 (List.nodup_append.1 hnodup).2.1).1 ?_
  exact List.mem_map.2 ⟨q, hq, heq⟩

/-- The declarations made before are those that were there. -/
theorem before_eq : b.before d.node = b₁.declarations := by
  obtain ⟨newer, hnewer, -, hne⟩ := h.exists_newer
  have hpass : ∀ p ∈ newer, (p.1 != d.node) = true := fun p hp =>
    bne_iff_ne.2 (hne p hp _ List.mem_cons_self)
  rw [before, hnewer, List.dropWhile_append_of_pos hpass, List.dropWhile_cons_of_neg (by simp)]
  rfl

/-- The declaration is that of its node. -/
theorem declaration?_eq : b.declaration? d.node = some d := by
  obtain ⟨newer, hnewer, -, hne⟩ := h.exists_newer
  have hnone : newer.lookup d.node = none := List.lookup_eq_none_iff.2 fun p hp =>
    bne_iff_ne.2 (hne p hp _ List.mem_cons_self).symm
  rw [declaration?, hnewer, List.lookup_append, hnone, Option.none_or, List.lookup_cons_self]

/-- What was listed then is what is listed and has been declared before. -/
theorem mem_listed_iff {i : ScopeId} {y : String} :
    e ∈ b₁.listed i y ↔ e ∈ b.listed i y ∧ (e.node, e) ∈ b.before d.node := by
  have hgrows : b₁.Grows b := (b₁.grows_declaredAt o x d).trans h.later
  rw [h.before_eq]
  constructor
  · -- There was nothing in the beginning, so what is listed has been declared.
    intro he
    refine ⟨hgrows.listed i y he, ?_⟩
    obtain ⟨older, holder, hlisted⟩ := h.earlier.declarations
    rw [holder]
    exact List.mem_append_left _ ((hlisted i y e he).resolve_left List.not_mem_nil)
  · -- What has been declared before is not declared again later on, so it was listed then.
    rintro ⟨he, hbefore⟩
    obtain ⟨newer, -, hlisted, hne⟩ := h.exists_newer
    have he' := (hlisted i y e he).resolve_right fun hmem =>
      hne _ hmem _ (List.mem_cons_of_mem _ hbefore) rfl
    rw [listed_declaredAt b₁ h.lt_size] at he'
    split at he'
    · rename_i hboth
      obtain ⟨rfl, rfl⟩ := hboth
      refine (List.mem_append.1 he').resolve_right fun hmem => h.ne_node hbefore ?_
      rw [List.mem_singleton.1 hmem]
    · exact he'

/-- The declaration is listed by the scope that received it and by no other. -/
theorem mem_listed_self_iff {i : ScopeId} : d ∈ b.listed i x ↔ i = o := by
  constructor
  · intro hd
    obtain ⟨newer, -, hlisted, hne⟩ := h.exists_newer
    have hd' := (hlisted i x d hd).resolve_right fun hmem => hne _ hmem _ List.mem_cons_self rfl
    by_contra hio
    rw [listed_declaredAt b₁ h.lt_size, if_neg fun hboth => hio hboth.1] at hd'
    exact h.ne_node (h.before_eq ▸ (h.mem_listed_iff.1 hd').2) rfl
  · rintro rfl
    refine h.later.listed i x ?_
    rw [listed_declaredAt b₁ h.lt_size, if_pos ⟨rfl, rfl⟩]
    exact List.mem_append_right _ List.mem_cons_self

/-- The functions that had a name then are those that declared it before. -/
theorem functionHas_iff {i : ScopeId} {y : String} :
    b₁.FunctionHas y i ↔ b.DeclaresBefore d.node y i := by
  have hgrows : b₁.Grows b := (b₁.grows_declaredAt o x d).trans h.later
  constructor
  · rintro ⟨hfunction, hlisted⟩
    obtain ⟨e, he⟩ := List.exists_mem_of_ne_nil _ hlisted
    exact ⟨hfunction.grows hgrows, e, h.mem_listed_iff.1 he⟩
  · rintro ⟨⟨s, hs, hkind⟩, e, he⟩
    have he := h.mem_listed_iff.2 he
    refine ⟨?_, List.ne_nil_of_mem he⟩
    unfold listed at he
    cases hs₁ : b₁.scope? i with
    | none =>
      rw [hs₁] at he
      cases he
    | some s₁ =>
      obtain ⟨s', hs', hg⟩ := hgrows.scopes i s₁ hs₁
      obtain rfl := Option.some.inj (hs.symm.trans hs')
      exact ⟨s₁, hs₁, hg.kind.symm.trans hkind⟩

/-- The scope that received then is the one that receives what functions around have declared
before. -/
theorem receives_iff (hi : i < b₁.scopes.size) {y : String} :
    b₁.Receives (b₁.FunctionHas y) i j ↔ b.Receives (b.DeclaresBefore d.node y) i j := by
  have hgrows : b₁.Grows b := (b₁.grows_declaredAt o x d).trans h.later
  have htidy : b₁.Tidy := h.earlier.tidy tidy_empty
  have haround : ∀ k, b.Around i k ↔ b₁.Around i k := fun k => hgrows.around_iff htidy hi
  have hbetween : ∀ k, b₁.Around i k → (b.Around k j ↔ b₁.Around k j) := fun k hk =>
    hgrows.around_iff htidy (Nat.lt_trans (htidy.lt_of_around hk) hi)
  have hnearest : b₁.IsNearest (b₁.FunctionHas y) i j ↔
      b.IsNearest (b.DeclaresBefore d.node y) i j := by
    constructor
    · rintro ⟨hj, hhas, hnone⟩
      refine ⟨(haround j).2 hj, h.functionHas_iff.1 hhas, fun k hk hkj hdeclares => ?_⟩
      have hk := (haround k).1 hk
      exact hnone k hk ((hbetween k hk).1 hkj) (h.functionHas_iff.2 hdeclares)
    · rintro ⟨hj, hdeclares, hnone⟩
      refine ⟨(haround j).1 hj, h.functionHas_iff.2 hdeclares, fun k hk hkj hhas => ?_⟩
      exact hnone k ((haround k).2 hk) ((hbetween k hk).2 hkj) (h.functionHas_iff.1 hhas)
  unfold Receives
  rw [hnearest]
  refine or_congr_right (and_congr_right fun _ => forall_congr' fun k => ?_)
  rw [haround, h.functionHas_iff]

end Declared

end Bindings

/-- A statement in the body of a function says that a name stands for that of a function around, and
behind it an assignment in the same body gives a value to it. -/
structure Arena.Rebinds (a : Arena) (function n q t : NodeId) (x : String) : Prop where
  /-- The statement stands in the body. -/
  statement : ∃ suite, a.IsBody function suite ∧ a.Shares suite n
  /-- It names the name. -/
  names : ∃ names, a.form? n = some (.nonlocal names) ∧ x ∈ names.filterMap a.nameOf?
  /-- The assignment stands in the body. -/
  assignment : ∃ suite, a.IsBody function suite ∧ a.Shares suite q
  /-- The node gets a value there. -/
  assigns : a.Assigns q t
  /-- It spells the name. -/
  spells : a.nameOf? t = some x
  /-- The statement stands before the assignment. -/
  before : a.StartsBefore n q

namespace Bindings

variable {a : Arena} {root : NodeId}

/-- The scopes of a tree come before those that stand in them. -/
theorem tidy_ofTree (h : a.Rooted root) : (ofTree a root).Tidy :=
  (advances_ofTree h root).grows.tidy tidy_empty

/-- The body of a function is walked in its scope. -/
theorem exists_walk_suite (h : a.Rooted root) {function suite : NodeId} {i : ScopeId}
    (hbody : a.IsBody function suite) (hopened : (ofTree a root).OpenedBy i function) :
    ∃ fuel frame b₀, suite < fuel ∧ b₀.IsFunction i ∧ Bindings.empty.Grows b₀ ∧
      ((Binder.walk a fuel ⟨i, frame⟩ suite).run b₀).2.Grows (ofTree a root) := by
  obtain ⟨fuel, frame, b₀, hfuel, hsize, hbefore, hafter⟩ :=
    (advances_ofTree h root).entered function suite i hbody (Nat.zero_le i) hopened
  refine ⟨fuel, frame, b₀, hfuel, ?_, hbefore, hafter⟩
  -- What has been opened by a function is the scope of a function, then as in the end.
  obtain ⟨s, hs, rfl⟩ := hopened
  obtain ⟨_, _, _, _, _, hform⟩ := hbody
  have hkind := ((agrees_ofTree h).fits i s hs).kind
  rw [Arena.kind?_of_form? hform] at hkind
  obtain ⟨s₀, hs₀⟩ := exists_scope? hsize
  have hwalk : b₀.Grows ((Binder.walk a fuel ⟨i, frame⟩ suite).run b₀).2 :=
    Binder.grows_walk h hfuel hsize
  obtain ⟨s', hs', hg⟩ := (hwalk.trans hafter).scopes i s₀ hs₀
  obtain rfl := Option.some.inj (hs.symm.trans hs')
  exact ⟨s₀, hs₀, hg.kind.symm.trans (Option.some.inj hkind).symm⟩

/-- A name is declared where it is given a value, for the scope of the function. -/
theorem exists_declared (h : a.Rooted root) {hi : Nat} (hnested : Nested a hi)
    {function n q t : NodeId} {i : ScopeId} {x : String} (hrebinds : a.Rebinds function n q t x)
    (hx : x ≠ "") (hopened : (ofTree a root).OpenedBy i function)
    (hglobal : ∀ s, (ofTree a root).scope? i = some s → x ∉ s.globals) :
    ∃ d o b₁, d.node = t ∧ d.kind = .variable ∧ i < b₁.scopes.size ∧
      (ofTree a root).Declared x d o b₁ ∧
      ∀ j, j = o ↔ b₁.Receives (b₁.FunctionHas x) i j := by
  obtain ⟨suite, hbody, hn⟩ := hrebinds.statement
  obtain ⟨names, hform, hmem⟩ := hrebinds.names
  obtain ⟨suite', hbody', hq⟩ := hrebinds.assignment
  obtain ⟨token, hname⟩ : ∃ token, a.form? t = some (.name token x) := by
    have hspells := hrebinds.spells
    unfold Arena.nameOf? at hspells
    split at hspells
    · obtain rfl := Option.some.inj hspells
      exact ⟨_, ‹_›⟩
    · cases hspells
  obtain rfl := hbody.unique hbody'
  -- The walk of the body comes to the declaration when the name is noted already.
  obtain ⟨fuel, frame, b₀, hfuel, hfunction, hbefore, hafter⟩ := exists_walk_suite h hbody hopened
  have hscope : b₀.IsFunction (WalkContext.mk i frame).scope := hfunction
  obtain ⟨d, b₁, hnode, hkind, hnonlocal, hpasses⟩ := Binder.exists_passes_after h hnested hform
    hmem hrebinds.assigns hname hrebinds.before hn hq hfuel hscope
  have hearlier : Bindings.empty.Grows b₁ := hbefore.trans hpasses.before
  have hlater := hpasses.after.trans hafter
  rw [Notes.run_declare b₁ i hx] at hlater
  have hgrows : b₁.Grows (ofTree a root) := (b₁.grows_declaredAt _ x d).trans hlater
  -- What stands for the name of the module stays so, and in the end this name does not.
  have htarget := target_eq_iff (hearlier.tidy tidy_empty) hnonlocal fun s hs hmem => by
    obtain ⟨s', hs', hg⟩ := hgrows.scopes i s hs
    exact hglobal s' hs' (hg.globals hmem)
  have hsize : i < b₁.scopes.size := (hfunction.grows hpasses.before).lt_size
  have hlt : b₁.target i x < b₁.scopes.size := by
    rcases (htarget _).1 rfl with hnearest | ⟨heq, -⟩
    · exact hnearest.holds.1.lt_size
    · exact heq ▸ hsize
  exact ⟨d, _, b₁, hnode, hkind, hsize, ⟨hearlier, hlt, hlater, nodup_declarations_ofTree h⟩,
    htarget⟩

/-- The node that is found to have opened a scope opened it. -/
theorem openedBy_of_scopeOf? {b : Bindings} {n : NodeId} {i : ScopeId}
    (h : b.scopeOf? n = some i) : b.OpenedBy i n := by
  obtain ⟨hlt, hnode, -⟩ := Array.findIdx?_eq_some_iff_getElem.1 h
  exact ⟨_, Array.getElem?_eq_some_iff.2 ⟨hlt, rfl⟩, eq_of_beq hnode⟩

end Bindings

/-- Where a function says that a name stands for that of a function around, a value given to the
name behind that is declared once: for the nearest function around that has declared the name
before, or else for the function itself, even if a function around declares it later on. So of a
function around, with no other one in between that declares the name, it is a declaration just if
that one has declared the name before. The empty name stands for a missing one, which is not
declared, and the function is not to say that the name stands for that of the module. -/
theorem ParsedText.ofText_rebinds (text : String) :
    let p := ofText text
    let b := Bindings.ofTree p.arena p.root
    ∀ function n q t i x, p.arena.Rebinds function n q t x → x ≠ "" →
      b.scopeOf? function = some i → (∀ s, b.scope? i = some s → x ∉ s.globals) →
      ∃ d, b.declaration? t = some d ∧ d.kind = .variable ∧
        (∀ j, d ∈ b.listed j x ↔ b.Receives (b.DeclaresBefore t x) i j) ∧
        ∀ j, b.Around i j → b.IsFunction j →
          (∀ k, b.Around i k → b.Around k j → b.IsFunction k → b.listed k x = []) →
          ((d ∈ b.listed j x ∧ d ∉ b.listed i x) ↔
            ∃ e ∈ b.listed j x, (e.node, e) ∈ b.before t) := by
  intro p b function n q t i x hrebinds hx hscope hglobal
  obtain ⟨d, o, b₁, rfl, hkind, hsize, hdeclared, hreceives⟩ :=
    Bindings.exists_declared (rooted_ofText text) (nested_ofText text) hrebinds hx
      (Bindings.openedBy_of_scopeOf? hscope) hglobal
  have hlisted : ∀ j, d ∈ b.listed j x ↔ b.Receives (b.DeclaresBefore d.node x) i j := fun j =>
    hdeclared.mem_listed_self_iff.trans
      ((hreceives j).trans (hdeclared.receives_iff hsize))
  refine ⟨d, hdeclared.declaration?_eq, hkind, hlisted, fun j hj hfunction hbetween => ?_⟩
  have htidy : b.Tidy := Bindings.tidy_ofTree (rooted_ofText text)
  rw [hlisted, hlisted]
  -- Of the functions around, the given one is the first that may have declared the name before.
  constructor
  · rintro ⟨hnearest | ⟨rfl, hnone⟩, hnot⟩
    · exact hnearest.holds.2
    · exact absurd (.inr ⟨rfl, hnone⟩) hnot
  · intro hbefore
    have hholds : b.DeclaresBefore d.node x j := ⟨hfunction, hbefore⟩
    refine ⟨.inl ⟨hj, hholds, ?_⟩, ?_⟩
    · rintro k hk hkj ⟨hk', e, he, -⟩
      rw [hbetween k hk hkj hk'] at he
      cases he
    · rintro (hself | ⟨-, hnone⟩)
      · exact Nat.lt_irrefl i (htidy.lt_of_around hself.around)
      · exact hnone j hj hholds

/-- A function around that declares the name behind the function in it does not receive the
declaration. -/
theorem ParsedText.ofText_rebinds_late :
    let p := ofText "def g():\n def f():\n  nonlocal x\n  x=1\n x=0\n"
    let b := Bindings.ofTree p.arena p.root
    (p.arena.Rebinds 10 3 7 5 "x" ∧ "x" ≠ "" ∧ b.scopeOf? 10 = some 2 ∧
        (∀ s, b.scope? 2 = some s → "x" ∉ s.globals) ∧ b.Around 2 1 ∧ b.IsFunction 1 ∧
        ∀ k, b.Around 2 k → b.Around k 1 → b.IsFunction k → b.listed k "x" = []) ∧
      ∃ d, b.declaration? 5 = some d ∧ ¬ (d ∈ b.listed 1 "x" ∧ d ∉ b.listed 2 "x") := by
  intro p b
  obtain ⟨hfunction, hsuite, hfirst, hsecond, hnames, hassignment, htarget⟩ :
      p.arena.form? 10 = some (.function [] false 1 [] none 9) ∧
        p.arena.form? 9 = some (.suite [4, 8]) ∧ p.arena.form? 4 = some (.statementList [3]) ∧
        p.arena.form? 8 = some (.statementList [7]) ∧ p.arena.form? 3 = some (.nonlocal [2]) ∧
        p.arena.form? 7 = some (.assignment 5 6) ∧
        p.arena.form? 5 = some (.name ⟨⟨34, 1⟩, .identifier "x"⟩ "x") := by decide +kernel
  obtain ⟨hspelled, hspells, hstart, hstart'⟩ : p.arena.nameOf? 2 = some "x" ∧
      p.arena.nameOf? 5 = some "x" ∧ p.arena.range? 3 = some ⟨21, 10⟩ ∧
      p.arena.range? 7 = some ⟨34, 3⟩ := by decide +kernel
  obtain ⟨hscope, hglobals, hparent, hkind, hlate⟩ : b.scopeOf? 10 = some 2 ∧
      (b.scope? 2).map (·.globals) = some [] ∧ (b.scope? 2).map (·.parent) = some (some 1) ∧
      (b.scope? 1).map (·.kind) = some .function ∧
      ¬ ∃ e ∈ b.listed 1 "x", (e.node, e) ∈ b.before 5 := by decide +kernel
  have hbody : p.arena.IsBody 10 9 := ⟨_, _, _, _, _, hfunction⟩
  have hrebinds : p.arena.Rebinds 10 3 7 5 "x" := by
    refine ⟨⟨9, hbody, .tail (.single ⟨_, hsuite, rfl, ?_⟩) ⟨_, hfirst, rfl, List.mem_cons_self⟩⟩,
      ⟨[2], hnames, by simp [hspelled]⟩,
      ⟨9, hbody, .tail (.single ⟨_, hsuite, rfl, ?_⟩) ⟨_, hsecond, rfl, List.mem_cons_self⟩⟩,
      ⟨_, 5, hassignment, List.mem_cons_self, .name htarget⟩, hspells,
      ⟨_, _, hstart, hstart', by decide⟩⟩
    · simp [Form.children]
    · simp [Form.children]
  have hfree : ∀ s, b.scope? 2 = some s → "x" ∉ s.globals := by
    intro s hs
    rw [hs] at hglobals
    simp [Option.some.inj hglobals]
  have haround : b.Around 2 1 := by
    obtain ⟨s, hs, ho⟩ := Option.map_eq_some_iff.1 hparent
    exact .single ⟨s, hs, ho⟩
  have hbetween : ∀ k, b.Around 2 k → b.Around k 1 → b.IsFunction k → b.listed k "x" = [] := by
    intro k hk hk'
    have htidy : b.Tidy := Bindings.tidy_ofTree (rooted_ofText _)
    exact absurd (htidy.lt_of_around hk') (Nat.not_lt.2 (Nat.le_of_lt_succ (htidy.lt_of_around hk)))
  have hfun : b.IsFunction 1 := Option.map_eq_some_iff.1 hkind
  obtain ⟨d, hd, -, -, hiff⟩ :=
    ofText_rebinds _ 10 3 7 5 2 "x" hrebinds (by decide) hscope hfree
  exact ⟨⟨hrebinds, by decide, hscope, hfree, haround, hfun, hbetween⟩, d, hd, fun hboth =>
    hlate ((hiff 1 haround hfun hbetween).1 hboth)⟩

end TypeProbe
