import Mathlib.Algebra.Order.BigOperators.Group.List
import Mathlib.Algebra.Order.Group.Nat
import TypeProbe.Proofs.Scope.Growth
import TypeProbe.Proofs.Scope.Walk

/-!
# Every node declares once

A statement declares what its target is made of (`Arena.Targets`), and then its parts are walked,
the target among them. The walk of a target declares nothing that the target is made of, so no node
is declared a second time. `Arena.declares` bounds what the walk of a node may declare, and
`Notes.walk` says that it does no more than that.
-/

namespace TypeProbe

namespace Form

/-- The parts of a target that are targets, too. -/
def targetParts : Form → List NodeId
  | .typeHint value _ => [value]
  | .tuple entries _ => entries
  | .list entries => entries
  | .unpack expression => [expression]
  | _ => []

/-- Whether a construct can be a target that binds something. -/
def isTarget : Form → Bool
  | .name _ _ => true
  | .memberAccess _ _ => true
  | .typeHint _ _ => true
  | .tuple _ _ => true
  | .list _ => true
  | .unpack _ => true
  | _ => false

/-- The targets among the parts of a target are parts of it. -/
theorem targetParts_sublist_children (form : Form) : form.targetParts.Sublist form.children := by
  cases form <;> simp [targetParts, children]

end Form

namespace Arena

/-- What a target binds: names and members of what has some. -/
inductive Targets (a : Arena) : NodeId → NodeId → Prop
  /-- A name is a target. -/
  | name {n : NodeId} {token : Token} {value : String}
    (hform : a.form? n = some (.name token value)) : Targets a n n
  /-- A member is a target. -/
  | member {n left member : NodeId} (hform : a.form? n = some (.memberAccess left member)) :
    Targets a n n
  /-- What a part binds the whole target binds. -/
  | part {n m t : NodeId} {form : Form} (hform : a.form? n = some form)
    (hm : m ∈ form.targetParts) (h : Targets a m t) : Targets a n t

/-- A node is one of the statements on a line. -/
def IsStatement (a : Arena) (n : NodeId) : Prop :=
  (a.parent? n).bind a.kind? = some .statementList

open Classical in
/-- How many declarations of a node a target makes. -/
noncomputable def targetTimes (a : Arena) (t n : NodeId) : Nat := if a.Targets n t then 1 else 0

open Classical in
/-- How many declarations of a node the walk of another one may make: one if the node is found
there, but none if it is what the other one binds as a target. A target that is a statement of its
own may be declared by its walk. -/
noncomputable def declares (a : Arena) (t n : NodeId) : Nat :=
  if a.Reaches n t ∧ (a.Targets n t → a.IsStatement n) then 1 else 0

variable {a : Arena} {root t n u : NodeId} {form : Form}

/-- What a target binds is found in it. -/
theorem Targets.reaches (h : a.Targets n t) : a.Reaches n t := by
  induction h with
  | name | member => exact .refl
  | @part _ _ _ form hform hm _ ih =>
    exact .head (mem_children_of_form? hform (form.targetParts_sublist_children.subset hm)) ih

/-- What spells a name is a target. -/
theorem Targets.of_nameOf? {x : String} (h : a.nameOf? n = some x) : a.Targets n n := by
  unfold nameOf? at h
  split at h
  · exact .name ‹_›
  · cases h

/-- A walk declares only what is found. -/
theorem declares_le_times : a.declares t n ≤ a.times t n := by
  unfold declares
  split
  · rw [times_eq_one (And.left ‹_›)]
  · exact Nat.zero_le _

/-- Walks together declare only what is found. -/
theorem sum_declares_le_times (ids : List NodeId) :
    (ids.map (a.declares t)).sum ≤ (ids.map (a.times t)).sum :=
  List.sum_le_sum fun _ _ => declares_le_times

/-- A walk may declare what is found, where it is not bound as a target. -/
theorem times_le_declares (h : a.Targets n t → a.IsStatement n) :
    a.times t n ≤ a.declares t n := by
  unfold declares
  split
  · exact times_le_one
  · rename_i hnot
    rw [times_eq_zero fun hreach => hnot ⟨hreach, h⟩]

/-- What a target binds is found in it. -/
theorem targetTimes_le_times : a.targetTimes t n ≤ a.times t n := by
  unfold targetTimes
  split
  · rw [times_eq_one (Targets.reaches ‹_›)]
  · exact Nat.zero_le _

/-- A target and its walk make no two declarations of a node. -/
theorem targetTimes_add_declares_le (hn : ¬ a.IsStatement n) :
    a.targetTimes t n + a.declares t n ≤ a.times t n := by
  by_cases h : a.Targets n t
  · have hnone : a.declares t n = 0 := if_neg fun hboth => hn (hboth.2 h)
    rw [hnone]
    exact targetTimes_le_times
  · rw [targetTimes, if_neg h, Nat.zero_add]
    exact declares_le_times

namespace Rooted

variable (h : a.Rooted root)
include h

/-- A part of what is no list of statements is none of the statements on a line. -/
theorem not_isStatement (hform : a.form? n = some form) (hu : u ∈ form.children)
    (hkind : (form.kind == .statementList) = false) : ¬ a.IsStatement u := by
  rw [IsStatement, h.parent?_of_form? hform hu, Option.bind_some, kind?_of_form? hform]
  exact fun heq => ne_of_beq_false hkind (Option.some.inj heq)

/-- The walks of the parts of a node declare no more than the walk of the node may. -/
theorem sum_declares_le (hform : a.form? n = some form) :
    (form.children.map (a.declares t)).sum ≤ a.declares t n := by
  by_cases hn : a.Reaches n t ∧ (a.Targets n t → a.IsStatement n)
  · calc (form.children.map (a.declares t)).sum
        ≤ (form.children.map (a.times t)).sum := sum_declares_le_times form.children
      _ ≤ a.times t n := by
          rw [times_of_form? h hform]
          exact Nat.le_add_left _ _
      _ ≤ 1 := times_le_one
      _ = a.declares t n := (if_pos hn).symm
  · -- Where the node binds it as a target, so does the part below which it is found.
    refine Nat.le_trans (Nat.le_of_eq (List.sum_eq_zero fun k hk => ?_)) (Nat.zero_le _)
    obtain ⟨c, hc, rfl⟩ := List.mem_map.1 hk
    refine if_neg fun ⟨hreach, hstatement⟩ => hn ⟨.head (mem_children_of_form? hform hc) hreach,
      fun htargets => ?_⟩
    have hlt : c < n := h.lt n c (mem_children_of_form? hform hc)
    cases htargets with
    | name | member => exact absurd (Reaches.le h.lt hreach) (Nat.not_le.2 hlt)
    | @part _ m _ form' hform' hm htargets =>
      obtain rfl := Option.some.inj (hform'.symm.trans hform)
      have hmem := form'.targetParts_sublist_children.subset hm
      obtain rfl := h.child_unique (mem_children_of_form? hform hc)
        (mem_children_of_form? hform hmem) hreach htargets.reaches
      refine absurd (hstatement htargets) (h.not_isStatement hform hc ?_)
      cases form' <;> first | rfl | cases hm

/-- The parts of a target bind no more than the target does. -/
theorem sum_targetTimes_le (hform : a.form? n = some form) :
    (form.targetParts.map (a.targetTimes t)).sum ≤ a.targetTimes t n := by
  by_cases hn : a.Targets n t
  · calc (form.targetParts.map (a.targetTimes t)).sum
        ≤ (form.targetParts.map (a.times t)).sum := List.sum_le_sum fun _ _ => targetTimes_le_times
      _ ≤ (form.children.map (a.times t)).sum :=
          (form.targetParts_sublist_children.map _).sum_le_sum fun _ _ => Nat.zero_le _
      _ ≤ a.times t n := by
          rw [times_of_form? h hform]
          exact Nat.le_add_left _ _
      _ ≤ 1 := times_le_one
      _ = a.targetTimes t n := (if_pos hn).symm
  · refine Nat.le_trans (Nat.le_of_eq (List.sum_eq_zero fun k hk => ?_)) (Nat.zero_le _)
    obtain ⟨m, hm, rfl⟩ := List.mem_map.1 hk
    exact if_neg fun htargets => hn (.part hform hm htargets)

/-- What a target binds and the walks of the parts beside it make no two declarations of a node. -/
theorem targetTimes_add_sum_le (hform : a.form? n = some form) (hu : u ∈ form.children)
    (hkind : (form.kind == .statementList) = false) (hn : a.Targets n t → a.IsStatement n) :
    a.targetTimes t u + (form.children.map (a.declares t)).sum ≤ a.declares t n := by
  -- The parts in front of the target and behind it may declare all that is found in them.
  obtain ⟨front, back, hchildren⟩ := List.append_of_mem hu
  have hfirst := targetTimes_add_declares_le (t := t) (h.not_isStatement hform hu hkind)
  have hfront := sum_declares_le_times (a := a) (t := t) front
  have hback := sum_declares_le_times (a := a) (t := t) back
  have hall := times_of_form? (x := t) h hform
  have hdeclares := times_le_declares hn
  rw [hchildren] at hall ⊢
  simp only [List.map_append, List.map_cons, List.sum_append, List.sum_cons] at hall ⊢
  omega

end Rooted

/-- A node of a form that is no target binds nothing. -/
theorem not_targets (hform : a.form? n = some form) (hkind : form.isTarget = false) :
    ¬ a.Targets n t := by
  intro h
  cases h with
  | name hform' | member hform' =>
    obtain rfl := Option.some.inj (hform'.symm.trans hform)
    cases hkind
  | @part _ _ _ form' hform' hm =>
    obtain rfl := Option.some.inj (hform'.symm.trans hform)
    cases form' <;> first | cases hkind; done | cases hm

end Arena

namespace Notes

variable {a : Arena} {root t n : NodeId} {i : ScopeId} {form : Form} {context : WalkContext}

section Targets

variable (h : a.Rooted root)
include h

omit h in
/-- A member may be noted, if a declaration of it is allowed. -/
theorem bindMember {target left member : NodeId} {source hint : Option NodeId} {k : Nat}
    (hk : target = t → 1 ≤ k) :
    Notes a t i k (Binder.bindMember a context target left member source hint) := by
  unfold Binder.bindMember
  split
  · refine ite (fun b _ => .of_size (.note rfl ⟨[_], rfl⟩ fun hb => ⟨?_, ?_, ?_⟩) rfl ?_)
      (ret.mono (Nat.zero_le _))
    · exact List.forall_mem_cons.2 ⟨rfl, hb.node⟩
    · exact fun i s d hs hd => .tail _ (hb.symbols i s d hs hd)
    · refine fun e he => (List.mem_append.1 he).elim (fun he => .tail _ (hb.members e he)) ?_
      intro he
      rw [List.mem_singleton.1 he]
      exact .head _
    · show List.count t (target :: b.declarations.map (·.1)) ≤ b.times t + k
      rw [List.count_cons]
      refine Nat.add_le_add_left ?_ _
      split
      · exact hk (eq_of_beq ‹_›)
      · exact Nat.zero_le _
  · exact ret.mono (Nat.zero_le _)

/-- What a target binds may be declared. -/
theorem bindTarget (fuel : Nat) (target : NodeId) (source hint : Option NodeId) (path : List Nat) :
    Notes a t i (a.targetTimes t target)
      (Binder.bindTarget a context fuel target source hint path) := by
  -- On the depth to which a target is gone into; where that ends nothing is noted.
  induction fuel generalizing target source hint path with
  | zero => exact ret.mono (Nat.zero_le _)
  | succ fuel ih =>
    have hself : a.Targets target target → target = t → 1 ≤ a.targetTimes t target := by
      rintro htarget rfl
      exact Nat.le_of_eq (if_pos htarget).symm
    have hpart : ∀ {form part source hint path}, a.form? target = some form →
        form.targetParts = [part] →
        Notes a t i (a.targetTimes t target)
          (Binder.bindTarget a context fuel part source hint path) := by
      intro form part source hint path hform hparts
      have hle := h.sum_targetTimes_le (t := t) hform
      rw [hparts] at hle
      exact (ih part source hint path).mono (by simpa using hle)
    have hentries : ∀ {form entries}, a.form? target = some form → form.targetParts = entries →
        Notes a t i (a.targetTimes t target) (do
          for entry in entries.zipIdx do
            Binder.bindTarget a context fuel entry.1 source none (path ++ [entry.2])) := by
      intro form entries hform hparts
      have hle := h.sum_targetTimes_le (t := t) hform
      rw [hparts, ← List.zipIdx_map_fst 0 entries, List.map_map] at hle
      exact (forIn fun entry _ => ⟨_, rfl, ih entry.1 _ _ _⟩).mono hle
    unfold Binder.bindTarget
    split
    · rename_i hform
      exact declare (hself (.name hform))
    · exact hpart ‹_› rfl
    · exact hentries ‹_› rfl
    · exact hentries ‹_› rfl
    · exact hpart ‹_› rfl
    · rename_i hform
      exact bindMember (hself (.member hform))
    · exact ret.mono (Nat.zero_le _)

omit h in
/-- A name may be declared by itself. -/
theorem declareTitle {scope : ScopeId} {title : NodeId} {d : Declaration} (hd : d.node = title) :
    Notes a t i (a.targetTimes t title) (Binder.declareNode a scope title d) := by
  unfold Binder.declareNode
  cases hname : a.nameOf? title with
  | none => exact ret.mono (Nat.zero_le _)
  | some x =>
    subst hd
    refine declare fun heq => Nat.le_of_eq (if_pos ?_).symm
    exact heq ▸ Arena.Targets.of_nameOf? hname

/-- What a node declares that opens no scope, and what the walks of its parts declare, is declared
once. -/
theorem visitPlain (hform : a.form? n = some form) : ∃ k,
    Notes a t i k (Binder.visitPlain a context n form) ∧
      k + (if form.namesOnly then 0 else (form.children.map (a.declares t)).sum) ≤
        a.declares t n := by
  have hidle : 0 + (form.children.map (a.declares t)).sum ≤ a.declares t n := by
    rw [Nat.zero_add]
    exact h.sum_declares_le hform
  have htarget : ∀ {u}, u ∈ form.children → form.isTarget = false →
      (form.kind == .statementList) = false →
      a.targetTimes t u + (form.children.map (a.declares t)).sum ≤ a.declares t n :=
    fun hu hkind hlist => h.targetTimes_add_sum_le hform hu hlist fun htargets =>
      absurd htargets (Arena.not_targets hform hkind)
  have hself : form.isTarget = false → n = t → 1 ≤ a.declares t n := by
    rintro hkind rfl
    exact Nat.le_of_eq (if_pos ⟨.refl, fun htargets =>
      absurd htargets (Arena.not_targets hform hkind)⟩).symm
  unfold Binder.visitPlain
  -- The cases are those of the forms that note something, in their order.
  split
  · exact ⟨_, (bindTarget h _ _ _ _ _).before fun _ => ret,
      htarget (by simp [Form.children]) rfl rfl⟩
  · -- A name with a type hint is bound here only if it is a statement of its own.
    rename_i value _
    by_cases hstatement : a.IsStatement n
    · refine ⟨_, ?_, h.targetTimes_add_sum_le hform (u := value) (by simp [Form.children]) rfl
        fun _ => hstatement⟩
      exact ite ((bindTarget h _ _ _ _ _).before fun _ => ret) (ret.mono (Nat.zero_le _))
    · refine ⟨0, ?_, hidle⟩
      rw [if_neg fun heq => hstatement (eq_of_beq heq)]
      exact ret
  · exact ⟨_, (bindTarget h _ _ _ _ _).before fun _ => ret,
      htarget (by simp [Form.children]) rfl rfl⟩
  · exact ⟨_, (read fun _ => rfl).andThen fun _ => (bindTarget h _ _ _ _ _).before fun _ => ret,
      htarget (by simp [Form.children]) rfl rfl⟩
  · exact ⟨_, (bindTarget h _ _ _ _ _).before fun _ => ret,
      htarget (by simp [Form.children]) rfl rfl⟩
  · exact ⟨_, (bindTarget h _ _ _ _ _).before fun _ => ret,
      htarget (by simp [Form.children]) rfl rfl⟩
  · rename_i title _
    refine ⟨a.targetTimes t title, ?_, htarget (by simp [Form.children]) rfl rfl⟩
    exact before (declareTitle (d := ⟨.variable, title, some n, none, []⟩) rfl) fun _ => ret
  · rename_i source newName
    refine ⟨a.declares t n, ?_, Nat.le_refl _⟩
    cases Binder.importedName a source newName with
    | none => exact ret.mono (Nat.zero_le _)
    | some name => exact (declareNode (hself rfl)).before fun _ => ret
  · exact ⟨_, (declareNode (hself rfl)).before fun _ => ret, Nat.le_refl _⟩
  · refine ⟨0, andThen (modifyScope (fun s => ?_) fun _ => rfl) fun _ => ret, Nat.zero_le _⟩
    exact ⟨rfl, rfl, rfl, fun _ hy => Binds.mem_addNames.2 (.inl hy), List.Subset.refl _⟩
  · refine ⟨0, andThen (modifyScope (fun s => ?_) fun _ => rfl) fun _ => ret, Nat.zero_le _⟩
    exact ⟨rfl, rfl, rfl, List.Subset.refl _, fun _ hy => Binds.mem_addNames.2 (.inl hy)⟩
  · exact ⟨0, (forInPlain fun _ _ =>
      ⟨_, rfl, note (fun _ => rfl) (fun _ => rfl) fun _ => rfl⟩).andThen
      fun _ => ret, hidle⟩
  · exact ⟨0, (forInPlain fun _ _ =>
      ⟨_, rfl, note (fun _ => rfl) (fun _ => rfl) fun _ => rfl⟩).andThen
      fun _ => ret, hidle⟩
  · exact ⟨0, (forInPlain fun _ _ =>
      ⟨_, rfl, note (fun _ => rfl) (fun _ => rfl) fun _ => rfl⟩).andThen
      fun _ => ret, hidle⟩
  · refine ⟨0, ret, Nat.le_trans ?_ hidle⟩
    split
    · exact Nat.zero_le _
    · exact Nat.le_refl _

end Targets

/-! ## The walks of constructs -/

section Walks

variable (h : a.Rooted root) {fuel : Nat} (hwalk : ∀ m < n, ∀ context : WalkContext,
  Notes a t context.scope (a.declares t m) (Binder.walk a fuel context m))
include h hwalk

omit h in
/-- Nodes before a node may be walked one after the other. -/
theorem walkEach {ids : List NodeId} (hids : ∀ m ∈ ids, m < n) :
    Notes a t context.scope (ids.map (a.declares t)).sum
      (do for child in ids do Binder.walk a fuel context child) :=
  forIn fun m hm => ⟨_, rfl, hwalk m (hids m hm) context⟩

/-- The type hints and default values of parameters may be walked. -/
theorem walkParameters {parameters : List NodeId} (hparameters : ∀ p ∈ parameters, p < n) :
    Notes a t context.scope (parameters.map fun p => ((a.children p).map (a.times t)).sum).sum
      (Binder.walkParameters a (Binder.walk a fuel) context parameters) := by
  refine forIn fun p hp => ?_
  cases hform : a.form? p with
  | none => exact ⟨pure (), rfl, ret.mono (Nat.zero_le _)⟩
  | some form =>
    cases form with
    | parameter category title hint defaultValue =>
      have hlt : ∀ m ∈ hint.toList ++ defaultValue.toList, m < n := fun m hm =>
        Nat.lt_trans (h.lt p m (Arena.mem_children_of_form? hform (by
          rw [Form.children, List.append_assoc]
          exact List.mem_append_right _ hm))) (hparameters p hp)
      refine ⟨_, rfl, (walkEach hwalk hlt).mono ?_⟩
      rw [Arena.children_of_form? hform]
      calc ((hint.toList ++ defaultValue.toList).map (a.declares t)).sum
          ≤ ((hint.toList ++ defaultValue.toList).map (a.times t)).sum :=
            Arena.sum_declares_le_times _
        _ ≤ ((Form.parameter category title hint defaultValue).children.map (a.times t)).sum := by
            simp [Form.children]
    | _ => exact ⟨pure (), rfl, ret.mono (Nat.zero_le _)⟩

omit h hwalk in
/-- Parameters may be declared. -/
theorem declareParameters (parameters : List NodeId) (scope : ScopeId) :
    Notes a t i (parameters.map fun p => if p = t then 1 else 0).sum
      (Binder.declareParameters a scope parameters) := by
  refine forIn fun p _ => ?_
  cases hform : a.form? p with
  | none => exact ⟨pure (), rfl, ret.mono (Nat.zero_le _)⟩
  | some form =>
    cases form with
    | parameter category title hint defaultValue =>
      cases title with
      | none => exact ⟨pure (), rfl, ret.mono (Nat.zero_le _)⟩
      | some title =>
        exact ⟨_, rfl, declareNode fun (heq : p = t) => Nat.le_of_eq (if_pos heq).symm⟩
    | _ => exact ⟨pure (), rfl, ret.mono (Nat.zero_le _)⟩

omit hwalk in
/-- Parameters and what stands in them are found once. -/
theorem sum_parameters (parameters : List NodeId) :
    (parameters.map fun p => ((a.children p).map (a.times t)).sum).sum +
      (parameters.map fun p => if p = t then 1 else 0).sum =
        (parameters.map (a.times t)).sum := by
  rw [← List.sum_map_add]
  refine congrArg List.sum (List.map_congr_left fun p _ => ?_)
  rw [h.times_eq t p, Nat.add_comm]

omit hwalk in
/-- The walk of a node that is no target may declare what is found there. -/
theorem sum_le_declares (hform : a.form? n = some form) (hkind : form.isTarget = false) {k : Nat}
    (hk : k ≤ (if n = t then 1 else 0) + (form.children.map (a.times t)).sum) :
    k ≤ a.declares t n := by
  calc k ≤ a.times t n := times_of_form? h hform ▸ hk
    _ ≤ a.declares t n := Arena.times_le_declares fun htargets =>
        absurd htargets (Arena.not_targets hform hkind)

/-- A class may be walked. -/
theorem walkClass {decorators arguments : List NodeId} {title body : NodeId}
    (hform : a.form? n = some (.classDef decorators title arguments body)) :
    Notes a t context.scope (a.declares t n)
      (Binder.walkClass a (Binder.walk a fuel) context n decorators title arguments body) := by
  have hlt : ∀ m ∈ (Form.classDef decorators title arguments body).children, m < n :=
    fun m hm => h.lt n m (Arena.mem_children_of_form? hform hm)
  refine mono ?_ (sum_le_declares h hform rfl (k := ((decorators ++ arguments).map
    (a.declares t)).sum + ((if n = t then 1 else 0) + a.declares t body)) ?_)
  · refine (walkEach hwalk fun m hm => hlt m ?_).bind fun _ => ?_
    · simp only [Form.children, List.mem_append, List.mem_cons] at hm ⊢
      tauto
    refine (declareNode (d := .plain .class n) fun heq => (if_pos heq).ge).bind fun _ => ?_
    refine opened (fun suite hsuite => absurd hsuite (Arena.not_isBody hform rfl)) fun j => ?_
    exact hwalk body (hlt body (by simp [Form.children])) { context with scope := j }
  · have hparts := Arena.sum_declares_le_times (a := a) (t := t) (decorators ++ arguments)
    have hbody := Arena.declares_le_times (a := a) (t := t) (n := body)
    simp only [Form.children, List.map_append, List.map_cons, List.sum_append, List.sum_cons,
      List.map_nil, List.sum_nil] at hparts ⊢
    omega

/-- A function may be walked. -/
theorem walkFunction (hfuel : n ≤ fuel) {decorators parameters : List NodeId} {isAsync : Bool}
    {title body : NodeId} {returnHint : Option NodeId} (hform : a.form? n =
      some (.function decorators isAsync title parameters returnHint body)) :
    Notes a t context.scope (a.declares t n) (Binder.walkFunction a (Binder.walk a fuel) context n
      decorators title parameters returnHint body) := by
  have hlt : ∀ m ∈ (Form.function decorators isAsync title parameters returnHint body).children,
      m < n := fun m hm => h.lt n m (Arena.mem_children_of_form? hform hm)
  have hbody : body < n := hlt body (by simp [Form.children])
  refine mono ?_ (sum_le_declares h hform rfl (k := (decorators.map (a.declares t)).sum +
    ((parameters.map fun p => ((a.children p).map (a.times t)).sum).sum +
      ((returnHint.toList.map (a.declares t)).sum + ((if n = t then 1 else 0) +
        ((parameters.map fun p => if p = t then 1 else 0).sum + a.declares t body))))) ?_)
  · refine (walkEach hwalk fun m hm => hlt m (by simp [Form.children, hm])).bind fun _ => ?_
    refine (walkParameters h hwalk fun p hp => hlt p (by simp [Form.children, hp])).bind
      fun _ => ?_
    refine (walkEach hwalk fun m hm => hlt m ?_).bind fun _ => ?_
    · simp only [Form.children, List.mem_append, List.mem_cons]
      tauto
    refine (declareNode (d := .plain .function n) fun heq => (if_pos heq).ge).bind fun _ => ?_
    refine (read fun _ => rfl).andThen fun around => ?_
    -- The scope of the function is opened, and its body is walked there behind its parameters.
    refine opened (fun suite hsuite => ?_) fun j =>
      (declareParameters parameters j).bind fun _ => hwalk body hbody ⟨j, _⟩
    obtain rfl := hsuite.unique ⟨_, _, _, _, _, hform⟩
    refine ⟨fuel, some ⟨n, Binder.receiverOf a around parameters⟩,
      Nat.lt_of_lt_of_le hbody hfuel, fun j b hj => ?_⟩
    exact ⟨_, (declareParameters (t := t) (i := j) parameters j b hj).grows, .refl _⟩
  · have hdecorators := Arena.sum_declares_le_times (a := a) (t := t) decorators
    have hhint := Arena.sum_declares_le_times (a := a) (t := t) returnHint.toList
    have hsuite := Arena.declares_le_times (a := a) (t := t) (n := body)
    have hparameters := sum_parameters (t := t) h parameters
    simp only [Form.children, List.map_append, List.map_cons, List.sum_append, List.sum_cons,
      List.map_nil, List.sum_nil]
    omega

/-- A function without a name may be walked. -/
theorem walkLambda {parameters : List NodeId} {expression : NodeId}
    (hform : a.form? n = some (.lambda parameters expression)) :
    Notes a t context.scope (a.declares t n)
      (Binder.walkLambda a (Binder.walk a fuel) context n parameters expression) := by
  have hlt : ∀ m ∈ (Form.lambda parameters expression).children, m < n :=
    fun m hm => h.lt n m (Arena.mem_children_of_form? hform hm)
  refine mono ?_ (sum_le_declares h hform rfl
    (k := (parameters.map fun p => ((a.children p).map (a.times t)).sum).sum +
      ((parameters.map fun p => if p = t then 1 else 0).sum + a.declares t expression)) ?_)
  · refine (walkParameters h hwalk fun p hp => hlt p (by simp [Form.children, hp])).bind
      fun _ => ?_
    refine opened (fun suite hsuite => absurd hsuite (Arena.not_isBody hform rfl)) fun j => ?_
    exact (declareParameters parameters j).bind fun _ =>
      hwalk expression (hlt expression (by simp [Form.children])) ⟨j, _⟩
  · have hexpression := Arena.declares_le_times (a := a) (t := t) (n := expression)
    have hparameters := sum_parameters (t := t) h parameters
    simp only [Form.children, List.map_append, List.map_cons, List.sum_append, List.sum_cons,
      List.map_nil, List.sum_nil]
    omega

/-! ### Comprehensions -/

omit h hwalk in
/-- A walk that declares what is found may be said to do so. -/
theorem found (hp : ∀ m < n, ∀ context : WalkContext,
    Notes a t context.scope (a.declares t m) (Binder.walk a fuel context m)) {m : NodeId}
    (hm : m < n) (context : WalkContext) :
    Notes a t context.scope (a.times t m) (Binder.walk a fuel context m) :=
  (hp m hm context).mono Arena.declares_le_times

/-- A clause of a comprehension may be walked inside. -/
theorem walkClause (inner : WalkContext) {clause : NodeId} (hclause : clause < n) (isFirst : Bool) :
    Notes a t inner.scope (clauseTimes a t clause isFirst)
      (Binder.walkClause a (Binder.walk a fuel) inner clause isFirst) := by
  unfold Binder.walkClause clauseTimes
  cases hform : a.form? clause with
  | none => exact ret.mono (Nat.zero_le _)
  | some form =>
    cases form with
    | comprehensionFor isAsync target iterable =>
      have hlt : ∀ m ∈ [target, iterable], m < n := fun m hm =>
        Nat.lt_trans (h.lt clause m (Arena.mem_children_of_form? hform hm)) hclause
      have htarget := Arena.targetTimes_add_declares_le (t := t)
        (h.not_isStatement hform (u := target) (by simp [Form.children]) rfl)
      refine mono ((bindTarget h _ _ _ _ _).bind fun _ =>
        (hwalk target (hlt target (by simp)) inner).bind fun _ =>
          (?_ : Notes a t inner.scope (if isFirst then 0 else a.times t iterable) _)) ?_
      · cases isFirst with
        | true => exact ret
        | false => exact found hwalk (hlt iterable (by simp)) inner
      · dsimp only
        omega
    | _ => exact found hwalk hclause inner

/-- What the first clause of a comprehension goes through may be walked around it, before the
rest. -/
theorem walkFirstIterable {clauses : List NodeId} (hclauses : ∀ m ∈ clauses, m < n) {k : Nat}
    {rest : Unit → Binder Unit} (hrest : ∀ r, Notes a t context.scope k (rest r)) :
    Notes a t context.scope (outerTimes a t clauses + k)
      (match clauses.head?.bind a.form? with
        | some (.comprehensionFor _ _ iterable) => do
          let r ← Binder.walk a fuel context iterable
          rest r
        | _ => rest ()) := by
  unfold outerTimes
  cases hbind : clauses.head?.bind a.form? with
  | none => exact (hrest ()).mono (Nat.le_add_left _ _)
  | some first =>
    cases first with
    | comprehensionFor isAsync target iterable =>
      obtain ⟨clause, hhead, hfor⟩ := Option.bind_eq_some_iff.1 hbind
      have hclause : clause < n := hclauses clause (List.mem_of_mem_head? hhead)
      have hlt : iterable < clause :=
        h.lt clause iterable (Arena.mem_children_of_form? hfor (by simp [Form.children]))
      exact (found hwalk (Nat.lt_trans hlt hclause) context).bind hrest
    | _ => exact (hrest ()).mono (Nat.le_add_left _ _)

/-- A comprehension may be walked. -/
theorem walkComprehension {expression : NodeId} {clauses : List NodeId}
    (hform : a.form? n = some (.comprehension expression clauses)) :
    Notes a t context.scope (a.declares t n)
      (Binder.walkComprehension a (Binder.walk a fuel) context n expression clauses) := by
  have hlt : ∀ m ∈ (Form.comprehension expression clauses).children, m < n :=
    fun m hm => h.lt n m (Arena.mem_children_of_form? hform hm)
  refine mono ?_ (sum_le_declares h hform rfl (k := outerTimes a t clauses +
    ((clauses.zipIdx.map fun e => clauseTimes a t e.1 (e.2 == 0)).sum + a.times t expression)) ?_)
  · unfold Binder.walkComprehension
    extract_lets rest
    refine walkFirstIterable h hwalk (fun m hm => hlt m (List.mem_cons_of_mem _ hm)) fun _ => ?_
    refine opened (fun suite hsuite => absurd hsuite (Arena.not_isBody hform rfl)) fun j => ?_
    refine (forIn fun e he => ⟨_, rfl, walkClause h hwalk { context with scope := j }
      (hlt e.1 (List.mem_cons_of_mem _ (List.fst_mem_of_mem_zipIdx he))) _⟩).bind fun _ => ?_
    exact found hwalk (hlt expression List.mem_cons_self) { context with scope := j }
  · -- What the first clause goes through is counted around the comprehension, not in it.
    have hclauses : (clauses.map fun clause => clauseTimes a t clause false).sum ≤
        (clauses.map (a.times t)).sum := List.sum_le_sum fun clause _ => ?_
    · have houter := outerTimes_add_clauseTimes a t clauses
      rw [Form.children, List.map_cons, List.sum_cons]
      omega
    · unfold clauseTimes
      split
      · rename_i hfor
        rw [times_of_form? h hfor]
        simp [Form.children]
      · exact Nat.le_refl _

/-- What opens no scope may be walked. -/
theorem walkPlain (hform : a.form? n = some form) :
    Notes a t context.scope (a.declares t n) (do
      if ← Binder.visitPlain a context n form then
        for child in form.children do Binder.walk a fuel context child) := by
  obtain ⟨k, hvisit, hk⟩ : ∃ k, Notes a t context.scope k (Binder.visitPlain a context n form) ∧
      k + (if form.namesOnly then 0 else (form.children.map (a.declares t)).sum) ≤
        a.declares t n := visitPlain h hform
  refine mono (hvisit.bindOf (P := (· = !form.namesOnly))
    (fun b => Binds.visitPlain_result b) fun goesOn hgoesOn => ?_) hk
  subst hgoesOn
  cases form.namesOnly with
  | true => exact ret
  | false => exact walkEach hwalk fun m hm => h.lt n m (Arena.mem_children_of_form? hform hm)

/-- A node may be walked with all that is below it. -/
theorem walkNode (hfuel : n ≤ fuel) : Notes a t context.scope (a.declares t n)
    (Binder.walkNode a (Binder.walk a fuel) context n) := by
  unfold Binder.walkNode
  cases hform : a.form? n with
  | none => exact ret.mono (Nat.zero_le _)
  | some form =>
    cases form with
    | classDef => exact walkClass h hwalk hform
    | function => exact walkFunction h hwalk hfuel hform
    | lambda => exact walkLambda h hwalk hform
    | comprehension => exact walkComprehension h hwalk hform
    | _ => exact walkPlain h hwalk hform

end Walks

/-- A walk declares once, in scopes that are walked, and takes nothing back. -/
theorem walk (h : a.Rooted root) (fuel : Nat) {n : NodeId} (hn : n < fuel) (context : WalkContext) :
    Notes a t context.scope (a.declares t n) (Binder.walk a fuel context n) := by
  induction fuel generalizing n context with
  | zero => exact absurd hn (Nat.not_lt_zero n)
  | succ fuel ih =>
    have hfuel : n ≤ fuel := Nat.lt_succ_iff.1 hn
    exact walkNode h (fun m hm context => ih (Nat.lt_of_lt_of_le hm hfuel) context) hfuel

end Notes

namespace Bindings

variable {a : Arena} {root t : NodeId}

/-- The bindings of a tree declare once, in scopes that are walked. -/
theorem advances_ofTree (h : a.Rooted root) (t : NodeId) :
    Bindings.empty.Advances a t (a.times t root) (ofTree a root) := by
  obtain ⟨form, hform, hmodule⟩ := Arena.form?_of_kind? ((h.kind_root root).2 rfl)
  cases form <;> cases hmodule
  have hwalk : Notes a t moduleScope ((a.children root).map (a.declares t)).sum
      (do
        for child in a.children root do
          Binder.walk a (a.size + 1) ⟨moduleScope, none⟩ child) := by
    refine Notes.forIn fun child hchild => ⟨_, rfl, ?_⟩
    have hlt := Nat.lt_trans (h.lt root child hchild) (Arena.lt_size_of_form? hform)
    exact Notes.walk h _ (Nat.lt_succ_of_lt hlt) ⟨moduleScope, none⟩
  have hopened : Bindings.empty.Advances a t ((a.children root).map (a.declares t)).sum
      (ofTree a root) := by
    refine Advances.opened (s := ⟨.module, root, none, [], [], []⟩) rfl
      (fun o ho => by cases ho) (fun suite hsuite => ?_) (hwalk _ Nat.zero_lt_one)
    exact absurd hsuite (Arena.not_isBody hform rfl)
  refine hopened.mono ?_
  calc ((a.children root).map (a.declares t)).sum
      ≤ ((a.children root).map (a.times t)).sum := Arena.sum_declares_le_times _
    _ ≤ a.times t root := by
        rw [h.times_eq t root]
        exact Nat.le_add_left _ _

/-- No node of a tree declares twice. -/
theorem nodup_declarations_ofTree (h : a.Rooted root) :
    ((ofTree a root).declarations.map (·.1)).Nodup := by
  refine List.nodup_iff_count_le_one.2 fun t => ?_
  calc (ofTree a root).times t ≤ Bindings.empty.times t + a.times t root :=
        (advances_ofTree h t).declares
    _ = a.times t root := Nat.zero_add _
    _ ≤ 1 := Arena.times_le_one

end Bindings

end TypeProbe
