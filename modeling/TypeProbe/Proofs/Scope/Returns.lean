import TypeProbe.Proofs.Scope.Ledger
import TypeProbe.Proofs.Tree.Finding

/-!
# Returning statements and yielding expressions

A returning statement or a yielding expression is listed once, by the innermost function in whose
body it is found (`ParsedText.ofText_attributes`). The walk takes the parts of definitions and
comprehensions by hand and in an order of its own, so there are three things to see of the nodes
that it meets: each is met with what it belongs to (`Arena.Rooted.of_mem_met`), which one step keeps
(`Arena.Rooted.of_mem_steps`); each is met as often as it is found in the tree, which is once
(`Arena.Rooted.count_met`); and returning statements are met in the order of the text
(`Arena.Rooted.pairwise_met`), for the parts that are taken out of order are expressions, in which
there are no statements.
-/

namespace TypeProbe

namespace Arena

variable {a : Arena} {root n m x : NodeId} {form : Form} {owner : Option NodeId}

/-- The parts of parameters are their type hints and default values. -/
theorem mem_parameterParts {parameters : List NodeId} : m ∈ a.parameterParts parameters ↔
    ∃ p ∈ parameters, ∃ category title hint defaultValue,
      a.form? p = some (.parameter category title hint defaultValue) ∧
        m ∈ hint.toList ++ defaultValue.toList := by
  unfold parameterParts
  rw [List.mem_flatMap]
  refine exists_congr fun p => and_congr_right fun _ => ?_
  constructor
  · intro hm
    split at hm
    · exact ⟨_, _, _, _, ‹_›, hm⟩
    · cases hm
  · rintro ⟨category, title, hint, defaultValue, hform, hm⟩
    rw [hform]
    exact hm

/-- What is walked of a clause inside is the clause, or a part of it. -/
theorem mem_clauseParts {clause : NodeId} {isFirst : Bool} (hm : m ∈ a.clauseParts clause isFirst) :
    m = clause ∨ ∃ isAsync target iterable,
      a.form? clause = some (.comprehensionFor isAsync target iterable) ∧
        m ∈ [target, iterable] := by
  unfold clauseParts at hm
  split at hm
  · refine .inr ⟨_, _, _, ‹_›, ?_⟩
    cases isFirst <;> simp_all
  · exact .inl (List.mem_singleton.1 hm)
  · cases hm

/-- What the first clause of a comprehension goes through is part of it. -/
theorem mem_firstIterable {clauses : List NodeId} (hm : m ∈ a.firstIterable clauses) :
    ∃ clause ∈ clauses, ∃ isAsync target,
      a.form? clause = some (.comprehensionFor isAsync target m) := by
  unfold firstIterable at hm
  split at hm
  · rename_i hbind
    obtain ⟨clause, hhead, hfor⟩ := Option.bind_eq_some_iff.1 hbind
    obtain rfl := List.mem_singleton.1 hm
    exact ⟨clause, List.mem_of_mem_head? hhead, _, _, hfor⟩
  · cases hm

/-- A part of a construct that is not the body of a function. -/
def IsPlainPart (form : Form) (m : NodeId) : Prop := m ∈ form.children ∧ form.body? ≠ some m

/-- A part of a construct that makes no function is plain. -/
theorem isPlainPart_of_body?_eq_none (hbody : form.body? = none) (hm : m ∈ form.children) :
    IsPlainPart form m :=
  ⟨hm, fun h => Option.some_ne_none m (h.symm.trans hbody)⟩

/-- A node stops in the text before another one starts. -/
def StopsBefore (a : Arena) (n m : NodeId) : Prop :=
  ∃ r s, a.range? n = some r ∧ a.range? m = some s ∧ r.stop ≤ s.start

/-- A node that is there has a place in the text. -/
theorem exists_range {kind : NodeKind} (hkind : a.kind? n = some kind) :
    ∃ r, a.range? n = some r := by
  obtain ⟨node, hnode, -⟩ := Option.map_eq_some_iff.1 hkind
  exact ⟨node.range, by rw [range?, hnode]; rfl⟩

/-- What is found below a node stops before what is found below a node behind it. -/
theorem StopsBefore.of_reaches {y : NodeId} {hi : Nat} (h : a.StopsBefore n m)
    (hnested : Nested a hi) (hx : a.Reaches n x) (hy : a.Reaches m y)
    (hrx : ∃ r, a.range? x = some r) (hry : ∃ r, a.range? y = some r) : a.StopsBefore x y := by
  obtain ⟨r, s, hr, hs, hstops⟩ := h
  obtain ⟨rx, hrx⟩ := hrx
  obtain ⟨ry, hry⟩ := hry
  obtain ⟨r', hr', -, hstop⟩ := hnested.range_of_reaches hx hrx
  obtain ⟨s', hs', hstart, -⟩ := hnested.range_of_reaches hy hry
  obtain rfl := Option.some.inj (hr.symm.trans hr')
  obtain rfl := Option.some.inj (hs.symm.trans hs')
  exact ⟨rx, ry, hrx, hry, Nat.le_trans hstop (Nat.le_trans hstops hstart)⟩

namespace Rooted

variable (h : a.Rooted root)
include h

/-- The children of a node come in the order of the text. -/
theorem pairwise_children {hi : Nat} (hnested : Nested a hi) (n : NodeId) :
    (a.children n).Pairwise a.StopsBefore := by
  have hrange : ∀ c ∈ a.children n, ∃ r, a.range? c = some r := fun c hc => by
    obtain ⟨form, hform⟩ := h.exists_form hc
    exact exists_range (kind?_of_form? hform)
  cases hchildren : a.children n with
  | nil => exact .nil
  | cons c rest =>
    have hmem : c ∈ a.children n := hchildren ▸ List.mem_cons_self
    obtain ⟨form, hform, -⟩ := exists_form_of_mem_children hmem
    obtain ⟨r, hr⟩ := exists_range (kind?_of_form? hform)
    rw [← hchildren]
    refine (hnested n r hr).2.pairwise.imp_of_mem fun hb hc hstops => ?_
    obtain ⟨s, hs⟩ := hrange _ hb
    obtain ⟨t, ht⟩ := hrange _ hc
    exact ⟨s, t, hs, ht, hstops s t hs ht⟩

/-- What comes before the body of a function is not its body. -/
theorem isPlainPart_of_append {front : List NodeId} {body : NodeId} (hform : a.form? n = some form)
    (hchildren : form.children = front ++ [body]) (hbody : form.body? = some body)
    (hm : m ∈ front) : IsPlainPart form m := by
  have hnodup := h.nodup_children hform
  rw [hchildren] at hnodup
  refine ⟨hchildren ▸ List.mem_append_left _ hm, fun heq => ?_⟩
  obtain rfl := Option.some.inj (hbody.symm.trans heq)
  exact List.disjoint_of_nodup_append hnodup hm List.mem_cons_self

/-- A construct is walked by its parts, some of which are taken part by part themselves. -/
theorem of_mem_walkedAround (hform : a.form? n = some form) (hm : m ∈ a.walkedAround form) :
    IsPlainPart form m ∨ ∃ c inner, IsPlainPart form c ∧ a.form? c = some inner ∧
      IsPlainPart inner m := by
  have hparameter : ∀ {parameters : List NodeId}, (∀ p ∈ parameters, IsPlainPart form p) →
      m ∈ a.parameterParts parameters → ∃ c inner, IsPlainPart form c ∧
        a.form? c = some inner ∧ IsPlainPart inner m := by
    intro parameters hplain hm
    obtain ⟨p, hp, category, title, hint, defaultValue, hpform, hm⟩ := mem_parameterParts.1 hm
    refine ⟨p, _, hplain p hp, hpform, isPlainPart_of_body?_eq_none rfl ?_⟩
    rw [Form.children, List.append_assoc]
    exact List.mem_append_right _ hm
  cases form with
  | classDef decorators title arguments body =>
    refine .inl (isPlainPart_of_body?_eq_none rfl ?_)
    simp only [walkedAround, Form.children, List.mem_append, List.mem_cons] at hm ⊢
    tauto
  | function decorators isAsync title parameters returnHint body =>
    have hplain : ∀ c ∈ decorators ++ title :: (parameters ++ returnHint.toList),
        IsPlainPart (.function decorators isAsync title parameters returnHint body) c :=
      fun c hc => h.isPlainPart_of_append hform (by simp [Form.children]) rfl hc
    rw [walkedAround, List.mem_append, List.mem_append] at hm
    rcases hm with (hm | hm) | hm
    · exact .inl (hplain m (by simp [hm]))
    · exact .inr (hparameter (fun p hp => hplain p (by simp [hp])) hm)
    · exact .inl (hplain m (by simp_all))
  | lambda parameters expression =>
    exact .inr (hparameter (fun p hp => h.isPlainPart_of_append hform rfl rfl hp) hm)
  | comprehension expression clauses =>
    have hplain : ∀ c ∈ expression :: clauses, IsPlainPart (.comprehension expression clauses) c :=
      fun c hc => isPlainPart_of_body?_eq_none rfl hc
    rw [walkedAround, List.mem_append, List.mem_append, List.mem_flatMap] at hm
    rcases hm with (hm | ⟨e, he, hm⟩) | hm
    · obtain ⟨clause, hclause, isAsync, target, hfor⟩ := mem_firstIterable hm
      exact .inr ⟨clause, _, hplain clause (List.mem_cons_of_mem _ hclause), hfor,
        isPlainPart_of_body?_eq_none rfl (List.mem_cons_of_mem _ List.mem_cons_self)⟩
    · have hclause := List.mem_cons_of_mem expression (List.fst_mem_of_mem_zipIdx he)
      rcases mem_clauseParts hm with rfl | ⟨isAsync, target, iterable, hfor, hm⟩
      · exact .inl (hplain e.1 hclause)
      · exact .inr ⟨e.1, _, hplain e.1 hclause, hfor, isPlainPart_of_body?_eq_none rfl hm⟩
    · exact .inl (hplain m (by simp_all))
  | _ =>
    first
      | exact .inl (isPlainPart_of_body?_eq_none rfl hm)
      | exact absurd hm List.not_mem_nil

/-- Where a walk goes on to belongs to what the walk says, and is found below. -/
theorem of_mem_steps (hform : a.form? n = some form) (howns : a.Owns owner n)
    {step : Option NodeId × NodeId} (hstep : step ∈ a.steps owner n form) :
    a.Owns step.1 step.2 ∧ ∃ c ∈ a.children n, a.Reaches c step.2 := by
  have hplain : ∀ {p m : NodeId} {form : Form}, a.form? p = some form → a.Owns owner p →
      IsPlainPart form m → a.Owns owner m ∧ m ∈ a.children p := by
    rintro p m form hform howns ⟨hm, hbody⟩
    have hpart := h.owns_part hform hm howns
    rw [if_neg hbody] at hpart
    exact ⟨hpart, mem_children_of_form? hform hm⟩
  rcases List.mem_append.1 hstep with hstep | hstep
  · obtain ⟨m, hm, rfl⟩ := List.mem_map.1 hstep
    rcases h.of_mem_walkedAround hform hm with hm | ⟨c, inner, hc, hinner, hm⟩
    · obtain ⟨hpart, hchild⟩ := hplain hform howns hm
      exact ⟨hpart, m, hchild, .refl⟩
    · obtain ⟨hpart, hchild⟩ := hplain hform howns hc
      obtain ⟨hpart', hchild'⟩ := hplain hinner hpart hm
      exact ⟨hpart', c, hchild, .single hchild'⟩
  · obtain ⟨body, hbody, rfl⟩ := List.mem_map.1 hstep
    have hsome := Option.mem_toList.1 hbody
    have hchild := Form.mem_children_of_body? hsome
    have hpart := h.owns_part hform hchild howns
    rw [if_pos hsome] at hpart
    exact ⟨hpart, body, mem_children_of_form? hform hchild, .refl⟩

/-- What is met belongs to what it is met with, and is of a listed kind. -/
theorem of_mem_met {listed : NodeKind → Bool} {fuel : Nat} (howns : a.Owns owner n)
    {e : Option NodeId × NodeId} (he : e ∈ a.met listed fuel owner n) :
    a.Owns e.1 e.2 ∧ a.Reaches n e.2 ∧ ∃ kind, a.kind? e.2 = some kind ∧ listed kind = true := by
  induction fuel generalizing owner n with
  | zero => cases he
  | succ fuel ih =>
    unfold met at he
    cases hform : a.form? n with
    | none =>
      rw [hform] at he
      cases he
    | some form =>
      rw [hform, List.mem_append, List.mem_flatMap] at he
      rcases he with he | ⟨step, hstep, he⟩
      · split at he
        · obtain rfl := List.mem_singleton.1 he
          exact ⟨howns, .refl, form.kind, kind?_of_form? hform, ‹_›⟩
        · cases he
      · obtain ⟨hpart, c, hc, hreach⟩ := h.of_mem_steps hform howns hstep
        obtain ⟨howned, hbelow, hkind⟩ := ih hpart he
        exact ⟨howned, (Relation.ReflTransGen.head hc hreach).trans hbelow, hkind⟩

/-! ## Each node once -/

section Times

variable (hx : ∀ kind, a.kind? x = some kind → kind.isPassedOver = false)
include hx

/-- A node is found in parameters as often as in their type hints and default values. -/
theorem sum_parameterParts (parameters : List NodeId)
    (hkind : ∀ p ∈ parameters, a.kind? p = some .parameter) :
    ((a.parameterParts parameters).map (a.times x)).sum = (parameters.map (a.times x)).sum := by
  unfold parameterParts
  rw [List.map_flatMap, List.flatMap_def, List.sum_flatten, List.map_map]
  refine congrArg List.sum (List.map_congr_left fun p hp => ?_)
  obtain ⟨form, hform, hparameter⟩ := form?_of_kind? (hkind p hp)
  cases form <;> cases hparameter
  rw [times_parameter h hx hform, Function.comp_apply, hform]

/-- A node is found in the clauses of a comprehension as often as where they are walked. -/
theorem sum_clauses (clauses : List NodeId)
    (hforms : ∀ c ∈ clauses, ∃ form, a.form? c = some form) :
    ((a.firstIterable clauses).map (a.times x)).sum +
      ((clauses.zipIdx.flatMap fun e => a.clauseParts e.1 (e.2 == 0)).map (a.times x)).sum =
        (clauses.map (a.times x)).sum := by
  have hfirst : ((a.firstIterable clauses).map (a.times x)).sum = outerTimes a x clauses := by
    unfold firstIterable outerTimes
    generalize clauses.head?.bind a.form? = head
    rcases head with _ | form
    · rfl
    · cases form <;> simp
  have hclause : ∀ e ∈ clauses.zipIdx, ((a.clauseParts e.1 (e.2 == 0)).map (a.times x)).sum =
      clauseTimes a x e.1 (e.2 == 0) := by
    intro e he
    obtain ⟨form, hform⟩ := hforms e.1 (List.fst_mem_of_mem_zipIdx he)
    unfold clauseParts clauseTimes
    rw [hform]
    cases form with
    | comprehensionFor isAsync target iterable => cases e.2 == 0 <;> simp
    | _ => simp
  rw [← outerTimes_add h hx clauses, hfirst, List.map_flatMap, List.flatMap_def, List.sum_flatten,
    List.map_map]
  exact congrArg _ (congrArg List.sum (List.map_congr_left hclause))

/-- A node is found below a construct as often as where a walk goes on to from there. -/
theorem sum_steps (owner : Option NodeId) (hform : a.form? n = some form) :
    ((a.steps owner n form).map fun step => a.times x step.2).sum =
      (form.children.map (a.times x)).sum := by
  unfold steps
  rw [List.map_append, List.map_map, List.map_map, List.sum_append]
  show ((a.walkedAround form).map (a.times x)).sum +
    (form.body?.toList.map (a.times x)).sum = _
  have hplain : ((if form.namesOnly then [] else form.children).map (a.times x)).sum =
      (form.children.map (a.times x)).sum := by
    split
    · exact (times_namesOnly h hx hform ‹_›).symm
    · rfl
  cases form with
  | classDef decorators title arguments body =>
    have htitle := times_name h hx (h.parts n _ hform _ List.mem_cons_self)
    simp [walkedAround, Form.children, Form.body?, htitle]
  | function decorators isAsync title parameters returnHint body =>
    have htitle := times_name h hx (h.parts n _ hform _ List.mem_cons_self)
    have hparameters := h.sum_parameterParts hx parameters fun p hp =>
      h.parts n _ hform (p, .kind .parameter) (List.mem_cons_of_mem _ (mem_allOf.2 ⟨hp, rfl⟩))
    simp [walkedAround, Form.children, Form.body?, htitle, hparameters]
    omega
  | lambda parameters expression =>
    have hparameters := h.sum_parameterParts hx parameters fun p hp =>
      h.parts n _ hform (p, .kind .parameter) (List.mem_append_left _ (mem_allOf.2 ⟨hp, rfl⟩))
    simp [walkedAround, Form.children, Form.body?, hparameters]
  | comprehension expression clauses =>
    have hclauses := h.sum_clauses hx clauses fun c hc =>
      h.exists_form (mem_children_of_form? hform (List.mem_cons_of_mem _ hc))
    simp only [walkedAround, Form.children, Form.body?, List.map_append, List.sum_append,
      List.map_cons, List.sum_cons] at hclauses ⊢
    simp
    omega
  | _ => exact hplain

/-- A node of a listed kind is met as often as it is found. -/
theorem count_met {listed : NodeKind → Bool} {fuel : Nat} (hkind : (a.kind? x).any listed)
    (howns : a.Owns owner n) (hn : n < fuel) :
    ((a.met listed fuel owner n).map (·.2)).count x = a.times x n := by
  -- The fuel lasts since ids go down from a node to its children.
  induction fuel generalizing owner n with
  | zero => exact absurd hn (Nat.not_lt_zero n)
  | succ fuel ih =>
    unfold met
    cases hform : a.form? n with
    | none =>
      have hne : n ≠ x := by
        rintro rfl
        rw [kind?_eq, hform] at hkind
        cases hkind
      have hchildren : a.children n = [] := by rw [children_eq, hform]; rfl
      exact (times_eq_zero_of_children hchildren hne).symm
    | some form =>
      have hhere : ((if listed form.kind then [(owner, n)] else []).map (·.2)).count x =
          if n = x then 1 else 0 := by
        by_cases heq : n = x
        · subst heq
          rw [kind?_of_form? hform] at hkind
          simp_all
        · split <;> simp [heq]
      -- A step may go two nodes down, as into a parameter, but not to a larger id than a child's.
      have hbelow : ∀ step ∈ a.steps owner n form,
          ((a.met listed fuel step.1 step.2).map (·.2)).count x = a.times x step.2 := by
        intro step hstep
        obtain ⟨hpart, c, hc, hreach⟩ := h.of_mem_steps hform howns hstep
        have hlt : c < fuel := Nat.lt_of_lt_of_le (h.lt n c hc) (Nat.lt_succ_iff.1 hn)
        exact ih hpart (Nat.lt_of_le_of_lt (hreach.le h.lt) hlt)
      rw [times_of_form? h hform, ← h.sum_steps hx owner hform]
      simp only [List.map_append, List.count_append, List.map_flatMap, List.count_flatMap]
      rw [hhere]
      exact congrArg _ (congrArg List.sum (List.map_congr_left hbelow))

end Times

/-! ## Returning statements in the order of the text -/

/-- An expression holds no returning statements. -/
theorem met_eq_nil (hn : a.Has (n, .inline)) (howns : a.Owns owner n) (fuel : Nat) :
    a.met (NodeKind.isListed false) fuel owner n = [] := by
  refine List.eq_nil_iff_forall_not_mem.2 fun e he => ?_
  obtain ⟨-, hreach, kind, hkind, hlisted⟩ := h.of_mem_met howns he
  obtain ⟨kind', hkind', hinline⟩ := h.inline_of_reaches hn hreach
  obtain rfl := Option.some.inj (hkind.symm.trans hkind')
  obtain rfl : kind = .return := by cases kind <;> first | rfl | cases hlisted
  cases hinline

/-- Where a walk goes on to from a statement comes in the order of the text, except for
expressions. -/
theorem pairwise_walked {hi : Nat} (hnested : Nested a hi) (hform : a.form? n = some form)
    (hinline : form.holdsInline = false) :
    (a.walkedAround form ++ form.body?.toList).Pairwise fun m m' =>
      a.Has (m, .inline) ∨ a.Has (m', .inline) ∨ a.StopsBefore m m' := by
  have hchildren := (h.pairwise_children hnested n).imp fun {m m'} hstops =>
    (.inr (.inr hstops) : a.Has (m, .inline) ∨ a.Has (m', .inline) ∨ a.StopsBefore m m')
  rw [children_of_form? hform] at hchildren
  have hplain : (if form.namesOnly then [] else form.children).Pairwise fun m m' =>
      a.Has (m, .inline) ∨ a.Has (m', .inline) ∨ a.StopsBefore m m' := by
    split
    · exact .nil
    · exact hchildren
  cases form with
  | classDef decorators title arguments body =>
    refine hchildren.sublist ?_
    simp [walkedAround, Form.children, Form.body?]
  | function decorators isAsync title parameters returnHint body =>
    -- The type hints and default values of parameters are expressions.
    have hparts : ∀ m ∈ a.parameterParts parameters, a.Has (m, .inline) := by
      intro m hm
      obtain ⟨p, -, category, title, hint, defaultValue, hpform, hm⟩ := mem_parameterParts.1 hm
      refine h.inline_of_mem_children hpform rfl ?_
      rw [Form.children, List.append_assoc]
      exact List.mem_append_right _ hm
    have hothers : (decorators ++ (returnHint.toList ++ [body])).Sublist
        (Form.function decorators isAsync title parameters returnHint body).children := by
      refine .append (.refl _) (.cons _ ?_)
      rw [List.append_assoc]
      exact List.sublist_append_right _ _
    obtain ⟨hfront, hback, hcross⟩ := List.pairwise_append.1 (hchildren.sublist hothers)
    simp only [walkedAround, Form.body?, Option.toList_some, List.append_assoc]
    refine List.pairwise_append.2 ⟨hfront, List.pairwise_append.2 ⟨?_, hback, ?_⟩, ?_⟩
    · exact List.pairwise_of_forall_mem_list fun m hm _ _ => .inl (hparts m hm)
    · exact fun m hm _ _ => .inl (hparts m hm)
    · intro m hm m' hm'
      rcases List.mem_append.1 hm' with hm' | hm'
      · exact .inr (.inl (hparts m' hm'))
      · exact hcross m hm m' hm'
  | _ =>
    first
      | exact (List.append_nil _).symm ▸ hplain
      | cases hinline

/-- The steps from a statement come in the order of the text, except for those to expressions. -/
theorem pairwise_steps {hi : Nat} (hnested : Nested a hi) (hform : a.form? n = some form)
    (hinline : form.holdsInline = false) : (a.steps owner n form).Pairwise fun step step' =>
      a.Has (step.2, .inline) ∨ a.Has (step'.2, .inline) ∨ a.StopsBefore step.2 step'.2 := by
  have hmap : (a.steps owner n form).map Prod.snd = a.walkedAround form ++ form.body?.toList := by
    simp [steps, Function.comp_def]
  have hwalked := h.pairwise_walked hnested hform hinline
  rwa [← hmap, List.pairwise_map] at hwalked

/-- Below an expression or a returning statement no returning statements are met. -/
theorem flatMap_steps_eq_nil (hform : a.form? n = some form) (hinline : form.holdsInline = true)
    (howns : a.Owns owner n) (fuel : Nat) : ((a.steps owner n form).flatMap fun step =>
      a.met (NodeKind.isListed false) fuel step.1 step.2) = [] := by
  refine List.flatMap_eq_nil_iff.2 fun step hstep => ?_
  obtain ⟨hpart, c, hc, hreach⟩ := h.of_mem_steps hform howns hstep
  rw [children_of_form? hform] at hc
  have hchild := h.inline_of_mem_children hform hinline hc
  exact h.met_eq_nil (h.inline_of_reaches hchild hreach) hpart fuel

/-- Returning statements are met in the order of the text. -/
theorem pairwise_met {hi : Nat} (hnested : Nested a hi) (howns : a.Owns owner n) (fuel : Nat) :
    (a.met (NodeKind.isListed false) fuel owner n).Pairwise fun e e' =>
      a.StopsBefore e.2 e'.2 := by
  induction fuel generalizing owner n with
  | zero => exact .nil
  | succ fuel ih =>
    unfold met
    cases hform : a.form? n with
    | none => exact .nil
    | some form =>
      dsimp only
      cases hinline : form.holdsInline with
      | true =>
        rw [h.flatMap_steps_eq_nil hform hinline howns, List.append_nil]
        split
        · exact List.pairwise_singleton _ _
        · exact .nil
      | false =>
        have hhere : form.kind.isListed false = false := by
          cases form <;> first | rfl | cases hinline
        rw [hhere, if_neg Bool.false_ne_true, List.nil_append, List.pairwise_flatMap]
        refine ⟨fun step hstep => ih (h.of_mem_steps hform howns hstep).1, ?_⟩
        -- What is met in two steps lies in the subtrees of both, so it is in the same order.
        refine (h.pairwise_steps hnested hform hinline).imp_of_mem ?_
        intro s t hs ht hst e he e' he'
        have howns' := (h.of_mem_steps hform howns hs).1
        have howns'' := (h.of_mem_steps hform howns ht).1
        rcases hst with hs' | ht' | hstops
        · rw [h.met_eq_nil hs' howns'] at he
          cases he
        · rw [h.met_eq_nil ht' howns''] at he'
          cases he'
        · obtain ⟨-, hreach, kind, hkind, -⟩ := h.of_mem_met howns' he
          obtain ⟨-, hreach', kind', hkind', -⟩ := h.of_mem_met howns'' he'
          exact hstops.of_reaches hnested hreach hreach' (exists_range hkind)
            (exists_range hkind')

/-- From the root, a node of a listed kind is met once. -/
theorem count_met_root {yields : Bool} {kind : NodeKind} (hreach : a.Reaches root x)
    (hkind : a.kind? x = some kind) (hlisted : kind.isListed yields = true) :
    ((a.met (NodeKind.isListed yields) (a.size + 2) none root).map (·.2)).count x = 1 := by
  have hpassed : ∀ other, a.kind? x = some other → other.isPassedOver = false := by
    intro other hother
    obtain rfl := Option.some.inj (hkind.symm.trans hother)
    cases kind <;> first | rfl | cases hlisted
  have hany : (a.kind? x).any (NodeKind.isListed yields) := by rw [hkind]; exact hlisted
  have hlt : root < a.size + 2 := by
    rw [← h.last]
    exact Nat.lt_add_of_pos_right (Nat.succ_pos 2)
  rw [h.count_met hpassed hany h.owns_root hlt, times_eq_one hreach]

end Rooted

end Arena

namespace Bindings

open Arena

variable {a : Arena} {root f n : NodeId}

/-- What belongs to a function among the entries of nodes. -/
theorem belonging_owned (nodes : List (Option NodeId × NodeId)) (f : NodeId) :
    belonging (owned nodes) f = (nodes.filter (·.1 == some f)).map (·.2) := by
  induction nodes with
  | nil => rfl
  | cons e nodes ih =>
    obtain ⟨owner, n⟩ := e
    cases owner with
    | none => exact ih
    | some g =>
      have hcons : belonging (owned ((some g, n) :: nodes)) f =
          if g == f then n :: belonging (owned nodes) f else belonging (owned nodes) f := by
        unfold belonging owned
        simp only [List.filterMap_cons, Option.map_some, List.filter_cons]
        split <;> rfl
      rw [hcons, ih, List.filter_cons]
      have hsome : (some g == some f) = (g == f) := rfl
      rw [hsome]
      split <;> rfl

/-- The lists of functions hold the entries of the nodes that are met from the root. -/
theorem ledger_ofTree (h : a.Rooted root) (yields : Bool) :
    (ofTree a root).ledger yields =
      owned (a.met (NodeKind.isListed yields) (a.size + 2) none root) := by
  have hbinder : Lists yields (do
      let scope ← Binder.openScope .module root none
      for child in a.children root do
        Binder.walk a (a.size + 1) ⟨scope, none⟩ child)
      ((a.children root).flatMap fun child =>
        owned (a.met (NodeKind.isListed yields) (a.size + 1) none child)) :=
    Lists.openScope.andThen fun scope => Lists.forIn fun child _ =>
      ⟨_, rfl, Lists.walk (a.size + 1) ⟨scope, none⟩ child⟩
  have hempty : Bindings.empty.ledger yields = [] := by cases yields <;> rfl
  obtain ⟨form, hform, hmodule⟩ := form?_of_kind? ((h.kind_root root).2 rfl)
  cases form <;> cases hmodule
  have hmet : a.met (NodeKind.isListed yields) (a.size + 2) none root =
      (a.children root).flatMap (a.met (NodeKind.isListed yields) (a.size + 1) none) := by
    rw [met, hform, children_of_form? hform]
    simp [steps, walkedAround, Form.namesOnly, Form.body?, NodeKind.isListed,
      Form.kind, List.flatMap_map]
  rw [hmet, owned, List.filterMap_flatMap]
  refine (hbinder Bindings.empty).trans ?_
  rw [hempty, List.nil_append]
  rfl

/-- A function lists the nodes of a listed kind of which it is the innermost function. -/
theorem mem_belonging_ledger_iff (h : a.Rooted root) {yields : Bool} :
    n ∈ belonging ((ofTree a root).ledger yields) f ↔
      a.IsInnermost f n ∧ a.Reaches root n ∧
        ∃ kind, a.kind? n = some kind ∧ kind.isListed yields = true := by
  rw [ledger_ofTree h, belonging_owned]
  constructor
  · intro hn
    obtain ⟨⟨owner, m⟩, he, rfl⟩ := List.mem_map.1 hn
    obtain ⟨he, howner⟩ := List.mem_filter.1 he
    obtain rfl : owner = some f := eq_of_beq howner
    exact h.of_mem_met h.owns_root he
  · rintro ⟨hf, hreach, kind, hkind, hlisted⟩
    have hmet := List.count_pos_iff.1 (h.count_met_root hreach hkind hlisted ▸ Nat.one_pos)
    obtain ⟨e, he, rfl⟩ := List.mem_map.1 hmet
    have howner := h.owner_eq_some (h.of_mem_met h.owns_root he).1 hf
    exact List.mem_map_of_mem (List.mem_filter.2 ⟨he, beq_iff_eq.2 howner⟩)

/-- A function lists a node once of which it is the innermost function. -/
theorem count_belonging_ledger (h : a.Rooted root) {yields : Bool} {kind : NodeKind}
    (hf : a.IsInnermost f n) (hreach : a.Reaches root n) (hkind : a.kind? n = some kind)
    (hlisted : kind.isListed yields = true) :
    (belonging ((ofTree a root).ledger yields) f).count n = 1 := by
  rw [ledger_ofTree h, belonging_owned, ← h.count_met_root hreach hkind hlisted]
  simp only [List.count, List.countP_map, List.countP_filter]
  -- Whatever is met as this node is met with this function, so nothing is left out here.
  refine List.countP_congr fun e he => ?_
  rw [Function.comp_apply, Bool.and_eq_true, beq_iff_eq, beq_iff_eq]
  refine and_iff_left_of_imp fun hn => ?_
  subst hn
  exact h.owner_eq_some (h.of_mem_met h.owns_root he).1 hf

/-- The lists of functions hold the nodes of the listed kinds. -/
theorem attributes_ofTree (h : a.Rooted root) (yields : Bool) :
    a.Attributes root (fun kind => kind.isListed yields = true)
      (belonging ((ofTree a root).ledger yields)) where
  once n kind hreach hkind hlisted := by
    obtain ⟨owner, howns⟩ := h.exists_owns hreach
    cases owner with
    | none => exact .inr ⟨howns, fun f hf => howns f ((mem_belonging_ledger_iff h).1 hf).1.runs⟩
    | some f =>
      exact .inl ⟨f, howns, count_belonging_ledger h howns hreach hkind hlisted, fun g hg =>
        h.innermost_unique ((mem_belonging_ledger_iff h).1 hg).1 howns⟩
  only f n hn := ((mem_belonging_ledger_iff h).1 hn).2
  around d form part n kind hreach hform hpart hbody hn hnone hkind hlisted f := by
    have hroot : a.Reaches root n := (hreach.tail (mem_children_of_form? hform hpart)).trans hn
    rw [← h.innermost_iff_of_outside hform hpart hbody hn hnone, mem_belonging_ledger_iff h]
    exact and_iff_left ⟨hroot, kind, hkind, hlisted⟩

/-- The returning statements of a function come in the order of the text. -/
theorem pairwise_returnsOf (h : a.Rooted root) {hi : Nat} (hnested : Nested a hi) (f : NodeId) :
    ((ofTree a root).returnsOf f).Pairwise a.StopsBefore := by
  show (belonging ((ofTree a root).ledger false) f).Pairwise a.StopsBefore
  rw [ledger_ofTree h, belonging_owned, List.pairwise_map]
  exact (h.pairwise_met hnested h.owns_root _).filter _

end Bindings

/-- Returning statements and yielding expressions belong to one function: each is listed once, by
the innermost function in whose body it is found, and by none if there is none; so what is found in
a part of a definition that is not its body, such as a decorator, a default value or a type hint, is
listed by the function around the definition. The returning statements of a function are listed in
the order of the text. -/
theorem ParsedText.ofText_attributes (text : String) :
    let p := ofText text
    let b := Bindings.ofTree p.arena p.root
    p.arena.Attributes p.root (· = .return) b.returnsOf ∧
      p.arena.Attributes p.root (fun kind => kind = .yield ∨ kind = .yieldFrom) b.yieldsOf ∧
      ∀ f, (b.returnsOf f).Pairwise p.arena.StopsBefore := by
  intro p b
  have h : p.arena.Rooted p.root := rooted_ofText text
  refine ⟨(Bindings.attributes_ofTree h false).congr fun kind => ?_,
    (Bindings.attributes_ofTree h true).congr fun kind => ?_,
    Bindings.pairwise_returnsOf h (nested_ofText text)⟩
  · cases kind <;> simp [NodeKind.isListed]
  · cases kind <;> simp [NodeKind.isListed]

/-- A default value belongs to the function around. -/
example :
    let p := ParsedText.ofText "def g():\n def f(x=(yield 1)):\n  return 2\n"
    let b := Bindings.ofTree p.arena p.root
    (b.yieldsOf 12, b.yieldsOf 10, b.returnsOf 10) = ([4], [], [7]) := by
  decide +kernel

end TypeProbe
