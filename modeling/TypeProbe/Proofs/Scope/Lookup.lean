import TypeProbe.Proofs.Scope.Nonlocal

/-!
# Looking names up

From a scope, the names of the scopes around it are seen, but for those of classes. A name is that
of the first scope outwards that has it (`Bindings.lookup?_eq_some_iff`), unless the scope in which
the search starts says that the name stands for that of the module. What the scopes further out say
of the name does not matter to the search. So where a scope in between says that the name is that of
the module, the search finds it there just if no scope further out has the name, in particular not
if it starts in a scope in it and a function around has the name (`ParsedText.ofText_looksUp`).
-/

namespace TypeProbe

namespace Bindings

/-- The names of a scope are seen from the scope itself and from those in it, from the latter
unless it is the scope of a class. -/
def Sees (b : Bindings) (s i : ScopeId) : Prop :=
  i = s ∨ b.Around s i ∧ ∃ scope, b.scope? i = some scope ∧ scope.kind ≠ .class

/-- A scope is the first one outwards that is seen from another one and of which something holds. -/
structure IsFirstSeen (b : Bindings) (P : ScopeId → Prop) (s i : ScopeId) : Prop where
  /-- It is seen. -/
  sees : b.Sees s i
  /-- It is one of those. -/
  holds : P i
  /-- Those in between are not. -/
  first : ∀ k, b.Sees s k → b.Around k i → ¬P k

/-- The declarations of a name in a scope, if it has the name. -/
def symbol? (b : Bindings) (i : ScopeId) (x : String) : Option (List Declaration) :=
  (b.scope? i).bind fun scope => scope.symbols.get? x

/-- A scope has a name. -/
def HasName (b : Bindings) (x : String) (i : ScopeId) : Prop := (b.symbol? i x).isSome

/-- A scope says that a name stands for that of the module. -/
def SaysGlobal (b : Bindings) (x : String) (i : ScopeId) : Prop :=
  ∃ scope, b.scope? i = some scope ∧ x ∈ scope.globals

/-- What is found of a name in the module. -/
def ofModule (b : Bindings) (x : String) : Option (ScopeId × List Declaration) :=
  (b.symbol? moduleScope x).map fun declarations => (moduleScope, declarations)

variable {b : Bindings} {s i j k : ScopeId} {x : String} {P : ScopeId → Prop}

/-- What is seen from a scope is the scope or around it. -/
theorem Sees.eq_or_around (h : b.Sees s i) : i = s ∨ b.Around s i := h.imp_right (·.1)

/-- Of two scopes on the way outwards, one is around the other. -/
theorem eq_or_around_total (hi : i = s ∨ b.Around s i) (hj : j = s ∨ b.Around s j) :
    i = j ∨ b.Around i j ∨ b.Around j i := by
  rcases hi, hj with ⟨rfl | hi, rfl | hj⟩
  · exact .inl rfl
  · exact .inr (.inl hj)
  · exact .inr (.inr hi)
  · exact hi.total hj

/-- What is seen from a scope does not stand in it. -/
theorem Sees.not_around (htidy : b.Tidy) (h : b.Sees s i) : ¬b.Around i s := by
  intro hi
  have hlt := htidy.lt_of_around hi
  rcases h.eq_or_around with rfl | h
  · exact Nat.lt_irrefl _ hlt
  · exact Nat.lt_asymm hlt (htidy.lt_of_around h)

/-- There is one first scope. -/
theorem IsFirstSeen.unique (h : b.IsFirstSeen P s i) (h' : b.IsFirstSeen P s j) : i = j := by
  rcases eq_or_around_total h.sees.eq_or_around h'.sees.eq_or_around with heq | hij | hji
  · exact heq
  · exact absurd h.holds (h'.first i h.sees hij)
  · exact absurd h'.holds (h.first j h'.sees hji)

/-- The names of a scope on the way outwards are seen, unless it is that of a class and not the
first one. -/
theorem sees_iff {scope : Scope} (hscope : b.scope? i = some scope) (hi : i = s ∨ b.Around s i) :
    b.Sees s i ↔ (i == s || scope.kind != .class) = true := by
  rw [Sees, Bool.or_eq_true, beq_iff_eq, bne_iff_ne]
  constructor
  · rintro (heq | ⟨-, scope', hscope', hkind⟩)
    · exact .inl heq
    · obtain rfl := Option.some.inj (hscope.symm.trans hscope')
      exact .inr hkind
  · rintro (heq | hkind)
    · exact .inl heq
    · exact hi.imp_right fun h => ⟨h, scope, hscope, hkind⟩

/-- The search goes outwards from a scope to the first one that has the name. -/
theorem lookupFrom_spec (htidy : b.Tidy) {scope : Scope} (hscope : b.scope? i = some scope)
    (hi : i = s ∨ b.Around s i) (hbefore : ∀ k, b.Sees s k → b.Around k i → ¬b.HasName x k)
    {fuel : Nat} (hfuel : i < fuel) :
    match b.lookupFrom s x fuel (some i) with
    | some (j, declarations) => b.IsFirstSeen (b.HasName x) s j ∧ b.symbol? j x = some declarations
    | none => ∀ j, b.Sees s j → ¬b.HasName x j := by
  -- On the fuel, which goes down with the scopes: what a scope stands in comes before it.
  induction fuel generalizing i scope with
  | zero => exact absurd hfuel (Nat.not_lt_zero i)
  | succ fuel ih =>
    have hsymbol : b.symbol? i x = scope.symbols.get? x := by
      rw [symbol?, hscope]
      rfl
    unfold lookupFrom
    simp only [hscope]
    cases hanswer : if i == s || scope.kind != .class then scope.symbols.get? x else none with
    | some declarations =>
      obtain ⟨hvisible, hfound⟩ := Option.ite_none_right_eq_some.1 hanswer
      rw [← hsymbol] at hfound
      have hname : b.HasName x i := by simp [HasName, hfound]
      exact ⟨⟨(sees_iff hscope hi).2 hvisible, hname, hbefore⟩, hfound⟩
    | none =>
      -- What is not answered here has no name that is seen.
      have hhere : b.Sees s i → ¬b.HasName x i := by
        intro hseen
        rw [if_pos ((sees_iff hscope hi).1 hseen), ← hsymbol] at hanswer
        simp [HasName, hanswer]
      cases hparent : scope.parent with
      | none =>
        have hend : b.lookupFrom s x fuel none = none := by cases fuel <;> rfl
        simp only [hend]
        intro j hj
        rcases eq_or_around_total hi hj.eq_or_around with rfl | hij | hji
        · exact hhere hj
        · obtain ⟨o, ⟨scope', hscope', ho⟩, -⟩ := Relation.TransGen.head'_iff.1 hij
          obtain rfl := Option.some.inj (hscope.symm.trans hscope')
          rw [hparent] at ho
          cases ho
        · exact hbefore j hj hji
      | some o =>
        have hstands : b.StandsIn i o := ⟨scope, hscope, hparent⟩
        have hlt : o < i := htidy.outward i scope hscope o hparent
        obtain ⟨around, haround⟩ := exists_scope? (Nat.lt_trans hlt (lt_size_of_scope? hscope))
        have hso : o = s ∨ b.Around s o := by
          rcases hi with rfl | hi
          · exact .inr (.single hstands)
          · exact .inr (hi.tail hstands)
        refine ih haround hso (fun k hk hko => ?_)
          (Nat.lt_of_lt_of_le hlt (Nat.le_of_lt_succ hfuel))
        rcases eq_or_around_total hi hk.eq_or_around with rfl | hik | hki
        · exact hhere hk
        · -- No scope is in between: the one around is the next, or around that.
          have hlt' := htidy.lt_of_around hko
          rcases (around_iff hstands).1 hik with rfl | hok
          · exact absurd hlt' (Nat.lt_irrefl _)
          · exact absurd (htidy.lt_of_around hok) (Nat.not_lt_of_gt hlt')
        · exact hbefore k hk hki

/-- A scope that says that a name stands for that of the module finds it there. -/
theorem lookup?_of_saysGlobal (h : b.SaysGlobal x s) : b.lookup? s x = b.ofModule x := by
  obtain ⟨scope, hscope, hmem⟩ := h
  simp only [lookup?, hscope, List.contains_iff_mem.2 hmem, if_true]
  rfl

/-- Any other scope finds the first one that has the name, and nothing if there is none. -/
theorem lookup?_spec (htidy : b.Tidy) (hs : s < b.scopes.size) (h : ¬b.SaysGlobal x s) :
    match b.lookup? s x with
    | some (j, declarations) => b.IsFirstSeen (b.HasName x) s j ∧ b.symbol? j x = some declarations
    | none => ∀ j, b.Sees s j → ¬b.HasName x j := by
  obtain ⟨scope, hscope⟩ := exists_scope? hs
  have hglobal : scope.globals.contains x = false := by
    simpa using fun hmem => h ⟨scope, hscope, hmem⟩
  have hlookup : b.lookup? s x = b.lookupFrom s x (b.scopes.size + 1) (some s) := by
    simp only [lookup?, hscope, hglobal]
    rfl
  rw [hlookup]
  exact lookupFrom_spec htidy hscope (.inl rfl) (fun k hk hks => absurd hks (hk.not_around htidy))
    (Nat.lt_succ_of_lt hs)

/-- What is found is told by the first scope that has the name. -/
theorem lookup?_eq_some_iff (htidy : b.Tidy) (hs : s < b.scopes.size) (h : ¬b.SaysGlobal x s)
    {declarations : List Declaration} : b.lookup? s x = some (i, declarations) ↔
      b.IsFirstSeen (b.HasName x) s i ∧ b.symbol? i x = some declarations := by
  have hspec := lookup?_spec htidy hs h
  constructor
  · intro hfound
    rwa [hfound] at hspec
  · rintro ⟨hfirst, hdeclarations⟩
    cases hfound : b.lookup? s x with
    | none =>
      rw [hfound] at hspec
      exact absurd hfirst.holds (hspec i hfirst.sees)
    | some found =>
      obtain ⟨j, found⟩ := found
      rw [hfound] at hspec
      obtain rfl := hspec.1.unique hfirst
      exact congrArg (fun found => some (j, found))
        (Option.some.inj (hspec.2.symm.trans hdeclarations))

section Tree

variable {a : Arena} {root : NodeId}

/-- The module is around all other scopes. -/
theorem around_moduleScope (h : a.Rooted root) (hi : i < (ofTree a root).scopes.size)
    (hne : i ≠ moduleScope) : (ofTree a root).Around i moduleScope := by
  induction i using Nat.strong_induction_on with
  | _ i ih =>
    obtain ⟨scope, hscope⟩ := exists_scope? hi
    have hparent := parent_ofTree h hscope hne
    have hlt := (tidy_ofTree h).outward i scope hscope _ hparent
    generalize (ofTree a root).scopeContaining a scope.node = o at hparent hlt
    have hstands : (ofTree a root).StandsIn i o := ⟨scope, hscope, hparent⟩
    by_cases ho : o = moduleScope
    · exact ho ▸ .single hstands
    · exact .head hstands (ih o hlt (Nat.lt_trans hlt hi) ho)

/-- The names of the module are seen from everywhere. -/
theorem sees_moduleScope (h : a.Rooted root) (hs : s < (ofTree a root).scopes.size) :
    (ofTree a root).Sees s moduleScope := by
  by_cases heq : s = moduleScope
  · exact .inl heq.symm
  · obtain ⟨scope, hscope, hnode, -⟩ := exists_moduleScope h
    have hkind := ((agrees_ofTree h).fits _ scope hscope).kind
    rw [hnode, (h.kind_root root).2 rfl] at hkind
    refine .inr ⟨around_moduleScope h hs heq, scope, hscope, ?_⟩
    rw [← Option.some.inj hkind]
    decide

/-- What a scope finds is what the module has just if no scope before the module has the name. -/
theorem lookup?_eq_ofModule_iff (h : a.Rooted root) (hs : s < (ofTree a root).scopes.size)
    (hglobal : ¬(ofTree a root).SaysGlobal x s) :
    (ofTree a root).lookup? s x = (ofTree a root).ofModule x ↔
      ∀ i, (ofTree a root).IsFirstSeen ((ofTree a root).HasName x) s i → i = moduleScope := by
  have htidy := tidy_ofTree h
  have hspec := lookup?_spec htidy hs hglobal
  constructor
  · intro heq i hi
    obtain ⟨declarations, hdeclarations⟩ := Option.isSome_iff_exists.1 hi.holds
    have hfound := (lookup?_eq_some_iff htidy hs hglobal).2 ⟨hi, hdeclarations⟩
    rw [heq] at hfound
    obtain ⟨_, -, hpair⟩ := Option.map_eq_some_iff.1 hfound
    exact (congrArg Prod.fst hpair).symm
  · intro hall
    cases hfound : (ofTree a root).lookup? s x with
    | none =>
      -- The module is seen, too, so it does not have the name either.
      rw [hfound] at hspec
      have hnone := hspec _ (sees_moduleScope h hs)
      rw [HasName, Option.not_isSome_iff_eq_none] at hnone
      rw [ofModule, hnone]
      rfl
    | some found =>
      obtain ⟨j, declarations⟩ := found
      rw [hfound] at hspec
      obtain rfl := hall j hspec.1
      rw [ofModule, hspec.2]
      rfl

/-- The names of a node are looked up in a scope that is there. -/
theorem scopeContaining_lt_size (hb : 0 < b.scopes.size) (a : Arena) (n : NodeId) :
    b.scopeContaining a n < b.scopes.size := by
  have hfrom : ∀ fuel part outside current,
      b.scopeFrom a n fuel part outside current < b.scopes.size := by
    intro fuel
    induction fuel with
    | zero => exact fun _ _ _ => hb
    | succ fuel ih =>
      intro part outside current
      cases current with
      | none => exact hb
      | some current =>
        unfold scopeFrom
        dsimp only
        split
        · exact hb
        · split
          · rename_i i hfound
            obtain ⟨-, hopened⟩ := Option.ite_none_right_eq_some.1 hfound
            obtain ⟨s, hs, -⟩ := openedBy_of_scopeOf? hopened
            exact lt_size_of_scope? hs
          · exact ih _ _ _
  exact hfrom _ _ _ _

/-- A name that the module alone has is found there from everywhere. -/
theorem lookup?_of_moduleOnly (h : a.Rooted root) (n : NodeId) {declarations : List Declaration}
    (honly : ∀ i, (ofTree a root).symbol? i x =
      if i = moduleScope then some declarations else none) :
    (ofTree a root).lookup? ((ofTree a root).scopeContaining a n) x =
      some (moduleScope, declarations) := by
  obtain ⟨scope, hscope, -⟩ := exists_moduleScope h
  have hs := scopeContaining_lt_size (lt_size_of_scope? hscope) a n
  have hmodule : (ofTree a root).symbol? moduleScope x = some declarations := honly moduleScope
  by_cases hglobal : (ofTree a root).SaysGlobal x ((ofTree a root).scopeContaining a n)
  · rw [lookup?_of_saysGlobal hglobal, ofModule, hmodule]
    rfl
  · refine (lookup?_eq_some_iff (tidy_ofTree h) hs hglobal).2 ⟨⟨sees_moduleScope h hs, ?_, ?_⟩,
      hmodule⟩
    · rw [HasName, hmodule]
      rfl
    · intro k _ hk hname
      have hlt := (tidy_ofTree h).lt_of_around hk
      rw [HasName, honly k, if_neg (Nat.ne_of_gt hlt)] at hname
      cases hname

end Tree

end Bindings

/-- Where the first scope outwards that has a name or says that it stands for that of the module
does say so, the name is looked up in the module if the search starts there. Otherwise what that
scope says does not count: the search finds the first scope that has the name, as it would without
it. So what is found is what the module has just if the search starts there or no scope before the
module has the name. -/
theorem ParsedText.ofText_looksUp (text : String) :
    let p := ofText text
    let b := Bindings.ofTree p.arena p.root
    ∀ s g x, b.IsFirstSeen (fun i => b.HasName x i ∨ b.SaysGlobal x i) s g → b.SaysGlobal x g →
      (g = s → b.lookup? s x = b.ofModule x) ∧
      (g ≠ s → ∀ i declarations, b.lookup? s x = some (i, declarations) ↔
        b.IsFirstSeen (b.HasName x) s i ∧ b.symbol? i x = some declarations) ∧
      (b.lookup? s x = b.ofModule x ↔
        g = s ∨ ∀ i, b.IsFirstSeen (b.HasName x) s i → i = Bindings.moduleScope) := by
  intro p b s g x hfirst hglobal
  have h := rooted_ofText text
  have htidy : b.Tidy := Bindings.tidy_ofTree h
  by_cases heq : g = s
  · obtain rfl := heq
    have hmodule := Bindings.lookup?_of_saysGlobal hglobal
    exact ⟨fun _ => hmodule, fun hne => absurd rfl hne, iff_of_true hmodule (.inl rfl)⟩
  · -- Otherwise the scope in which the search starts does not say so.
    have haround : b.Around s g := hfirst.sees.eq_or_around.resolve_left heq
    have hs : s < b.scopes.size := by
      obtain ⟨o, ⟨scope, hscope, -⟩, -⟩ := Relation.TransGen.head'_iff.1 haround
      exact Bindings.lt_size_of_scope? hscope
    have hnot : ¬b.SaysGlobal x s := fun hsays =>
      hfirst.first s (.inl rfl) haround (.inr hsays)
    exact ⟨fun h => absurd h heq,
      fun _ i declarations => Bindings.lookup?_eq_some_iff htidy hs hnot,
      (Bindings.lookup?_eq_ofModule_iff h hs hnot).trans (or_iff_right heq).symm⟩

/-- From a lambda in a function that says that a name stands for that of the module, the name is
that of the function around. -/
theorem ParsedText.ofText_looksUp_lambda :
    let p := ofText "x=1\ndef g():\n x=2\n def f():\n  global x\n  return lambda: x\n"
    let b := Bindings.ofTree p.arena p.root
    (b.IsFirstSeen (fun i => b.HasName "x" i ∨ b.SaysGlobal "x" i) 3 2 ∧ b.SaysGlobal "x" 2) ∧
      b.IsFirstSeen (b.HasName "x") 3 1 ∧ b.lookup? 3 "x" ≠ b.ofModule "x" := by
  intro p b
  obtain ⟨hparent, hglobals, hkind, hsymbol, hstart, hfound⟩ :
      (b.scope? 3).map (·.parent) = some (some 2) ∧
        (b.scope? 2).map (·.globals) = some ["x"] ∧ (b.scope? 2).map (·.kind) = some .function ∧
        b.symbol? 3 "x" = none ∧ (b.scope? 3).map (·.globals) = some [] ∧
        (b.lookup? 3 "x").map (·.1) = some 1 := by decide +kernel
  have htidy : b.Tidy := Bindings.tidy_ofTree (rooted_ofText _)
  have hstands : b.StandsIn 3 2 := Option.map_eq_some_iff.1 hparent
  obtain ⟨scope, hscope, hxs⟩ := Option.map_eq_some_iff.1 hglobals
  have hglobal : b.SaysGlobal "x" 2 := ⟨scope, hscope, hxs ▸ List.mem_cons_self⟩
  have hnone : ¬(b.HasName "x" 3 ∨ b.SaysGlobal "x" 3) := by
    rintro (hhas | ⟨start, hscope, hmem⟩)
    · simp [Bindings.HasName, hsymbol] at hhas
    · rw [hscope, Option.map_some, Option.some.injEq] at hstart
      simp [hstart] at hmem
  have hfirst : b.IsFirstSeen (fun i => b.HasName "x" i ∨ b.SaysGlobal "x" i) 3 2 := by
    refine ⟨.inr ⟨.single hstands, scope, hscope, ?_⟩, .inr hglobal, fun k hk hk2 => ?_⟩
    · rw [hscope, Option.map_some, Option.some.injEq] at hkind
      simp [hkind]
    · -- Only the scope of the lambda comes before that of the function.
      rcases hk.eq_or_around with rfl | hk
      · exact hnone
      · exact absurd (htidy.lt_of_around hk) (Nat.not_lt.2 (htidy.lt_of_around hk2))
  obtain ⟨⟨_, declarations⟩, hlookup, rfl⟩ := Option.map_eq_some_iff.1 hfound
  obtain ⟨-, hsome, hmodule⟩ := ofText_looksUp _ 3 2 "x" hfirst hglobal
  have hfunction := ((hsome (by decide) 1 declarations).1 hlookup).1
  refine ⟨⟨hfirst, hglobal⟩, hfunction, fun heq => ?_⟩
  rcases hmodule.1 heq with h | hall
  · cases h
  · cases hall 1 hfunction

end TypeProbe
