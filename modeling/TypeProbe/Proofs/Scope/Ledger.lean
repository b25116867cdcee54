import TypeProbe.Proofs.Scope.Growth
import TypeProbe.Proofs.Scope.Owners
import TypeProbe.Proofs.Scope.Walk

/-!
# What a walk lists of functions

Of every function its returning statements and its yielding expressions are listed, in the order in
which a walk comes to them. `Arena.steps` says where a walk goes on to from a construct, and for
which function, and `Arena.met` goes on with that down to the nodes that are listed. Both are read
off the tree alone: what a walk adds to a list does not depend on the bindings that there are
(`Lists.walk`).
-/

namespace TypeProbe

/-- Whether nodes of a kind are listed, as yielding expressions or as returning statements. -/
def NodeKind.isListed (yields : Bool) : NodeKind → Bool
  | .return => !yields
  | .yield => yields
  | .yieldFrom => yields
  | _ => false

/-- The yielding expressions or the returning statements, each after the function it belongs to. -/
def Bindings.ledger (b : Bindings) (yields : Bool) : List (NodeId × NodeId) :=
  if yields then b.yields else b.returns

namespace Arena

variable (a : Arena)

/-- The type hints and default values of parameters. -/
def parameterParts (parameters : List NodeId) : List NodeId :=
  parameters.flatMap fun p =>
    match a.form? p with
    | some (.parameter _ _ hint defaultValue) => hint.toList ++ defaultValue.toList
    | _ => []

/-- What the first clause of a comprehension goes through. -/
def firstIterable (clauses : List NodeId) : List NodeId :=
  match clauses.head?.bind a.form? with
  | some (.comprehensionFor _ _ iterable) => [iterable]
  | _ => []

/-- What is walked of a clause inside of its comprehension. -/
def clauseParts (clause : NodeId) (isFirst : Bool) : List NodeId :=
  match a.form? clause with
  | some (.comprehensionFor _ target iterable) => target :: if isFirst then [] else [iterable]
  | some _ => [clause]
  | none => []

/-- Where a walk goes on to from a construct, the body of a function excepted. -/
def walkedAround : Form → List NodeId
  | .classDef decorators _ arguments body => decorators ++ arguments ++ [body]
  | .function decorators _ _ parameters returnHint _ =>
    decorators ++ a.parameterParts parameters ++ returnHint.toList
  | .lambda parameters _ => a.parameterParts parameters
  | .comprehension expression clauses =>
    a.firstIterable clauses ++
      (clauses.zipIdx.flatMap fun e => a.clauseParts e.1 (e.2 == 0)) ++ [expression]
  | form => if form.namesOnly then [] else form.children

/-- Where a walk goes on to from a construct, each with what it belongs to there. -/
def steps (owner : Option NodeId) (n : NodeId) (form : Form) : List (Option NodeId × NodeId) :=
  (a.walkedAround form).map (owner, ·) ++ form.body?.toList.map (some n, ·)

/-- The nodes of some kinds to which a walk comes from a node, each with what it belongs to. -/
def met (listed : NodeKind → Bool) :
    (fuel : Nat) → Option NodeId → NodeId → List (Option NodeId × NodeId)
  | 0, _, _ => []
  | fuel + 1, owner, n =>
    match a.form? n with
    | none => []
    | some form =>
      (if listed form.kind then [(owner, n)] else []) ++
        (a.steps owner n form).flatMap fun step => met listed fuel step.1 step.2

end Arena

/-- The entries of nodes that belong to a function. -/
def owned (nodes : List (Option NodeId × NodeId)) : List (NodeId × NodeId) :=
  nodes.filterMap fun e => e.1.map (·, e.2)

/-- What a context belongs to. -/
def WalkContext.owner (context : WalkContext) : Option NodeId := context.function.map (·.node)

/-- A binder adds entries to one of the lists of functions. -/
def Lists {α : Type} (yields : Bool) (p : Binder α) (entries : List (NodeId × NodeId)) : Prop :=
  ∀ b, (p.run b).2.ledger yields = b.ledger yields ++ entries

namespace Lists

variable {α β : Type} {yields : Bool} {p q : Binder α} {entries more : List (NodeId × NodeId)}

/-- A result may be returned. -/
theorem ret {r : α} : Lists yields (pure r : Binder α) [] := fun _ => (List.append_nil _).symm

/-- A binder may be followed by another one, which may rely on what holds of results. -/
theorem bindOf {P : α → Prop} {f : α → Binder β} (hp : Lists yields p entries)
    (hP : ∀ b : Bindings, P (p.run b).1) (hf : ∀ r, P r → Lists yields (f r) more) :
    Lists yields (p >>= f) (entries ++ more) := fun b => by
  rw [StateT.run_bind]
  show (((f (p.run b).1).run (p.run b).2).2).ledger yields = _
  rw [hf _ (hP b), hp, List.append_assoc]

/-- A binder may be followed by another one. -/
theorem bind {f : α → Binder β} (hp : Lists yields p entries)
    (hf : ∀ r, Lists yields (f r) more) : Lists yields (p >>= f) (entries ++ more) :=
  hp.bindOf (P := fun _ => True) (fun _ => trivial) fun r _ => hf r

/-- A binder that lists nothing may be followed by another one. -/
theorem andThen {f : α → Binder β} (hp : Lists yields p []) (hf : ∀ r, Lists yields (f r) more) :
    Lists yields (p >>= f) more := hp.bind hf

/-- What is added may be written in another way. -/
theorem congr (hp : Lists yields p entries) (h : entries = more) : Lists yields p more := h ▸ hp

/-- A binder may choose between two. -/
theorem ite {c : Prop} [Decidable c] (hp : Lists yields p entries) (hq : Lists yields q entries) :
    Lists yields (if c then p else q) entries := by
  split
  · exact hp
  · exact hq

/-- A binder lists nothing that leaves both lists. -/
theorem note (hreturns : ∀ b, (p.run b).2.returns = b.returns)
    (hyields : ∀ b, (p.run b).2.yields = b.yields) : Lists yields p [] := fun b => by
  rw [List.append_nil, Bindings.ledger, Bindings.ledger, hreturns, hyields]

/-- A step for each element of a list adds what the steps add. -/
theorem forIn {ys : List β} {f : β → PUnit → Binder (ForInStep PUnit)}
    {entries : β → List (NodeId × NodeId)}
    (h : ∀ y ∈ ys, ∃ p : Binder Unit, f y ⟨⟩ = (do p; return .yield ⟨⟩) ∧
      Lists yields p (entries y)) : Lists yields (forIn ys ⟨⟩ f) (ys.flatMap entries) := by
  induction ys with
  | nil => exact ret
  | cons y ys ih =>
    obtain ⟨p, hf, hp⟩ := h y List.mem_cons_self
    rw [List.forIn_cons, hf, bind_assoc]
    exact hp.bind fun _ => ih fun z hz => h z (List.mem_cons_of_mem _ hz)

/-- Steps that list nothing may be made for the elements of a list. -/
theorem forInPlain {ys : List β} {f : β → PUnit → Binder (ForInStep PUnit)}
    (h : ∀ y ∈ ys, ∃ p : Binder Unit, f y ⟨⟩ = (do p; return .yield ⟨⟩) ∧ Lists yields p []) :
    Lists yields (ForIn.forIn ys ⟨⟩ f) [] := by
  have hforIn := forIn h
  rwa [List.flatMap_eq_nil_iff.2 fun _ _ => rfl] at hforIn

/-! ## Scopes and declarations -/

/-- A declaration adds nothing to the lists of functions. -/
theorem declare {scope : ScopeId} {x : String} {d : Declaration} :
    Lists yields (Binder.declare scope x d) [] := by
  by_cases hx : x = ""
  · subst hx
    exact note (fun _ => rfl) fun _ => rfl
  · exact note (fun b => by rw [Notes.run_declare b scope hx]; rfl)
      fun b => by rw [Notes.run_declare b scope hx]; rfl

/-- The declaration of a name node adds nothing to the lists of functions. -/
theorem declareNode {a : Arena} {scope : ScopeId} {node : NodeId} {d : Declaration} :
    Lists yields (Binder.declareNode a scope node d) [] := by
  unfold Binder.declareNode
  split
  · exact declare
  · exact ret

/-- A member that is noted adds nothing to the lists of functions. -/
theorem bindMember {a : Arena} {context : WalkContext} {target left member : NodeId}
    {source hint : Option NodeId} :
    Lists yields (Binder.bindMember a context target left member source hint) [] := by
  unfold Binder.bindMember
  split
  · exact ite (note (fun _ => rfl) fun _ => rfl) ret
  · exact ret

/-- The names that a target binds add nothing to the lists of functions. -/
theorem bindTarget {a : Arena} {context : WalkContext} (fuel : Nat) {target : NodeId}
    {source hint : Option NodeId} {path : List Nat} :
    Lists yields (Binder.bindTarget a context fuel target source hint path) [] := by
  induction fuel generalizing target source hint path with
  | zero => exact ret
  | succ fuel ih =>
    unfold Binder.bindTarget
    split
    · exact declare
    · exact ih
    · exact forInPlain fun _ _ => ⟨_, rfl, ih⟩
    · exact forInPlain fun _ _ => ⟨_, rfl, ih⟩
    · exact ih
    · exact bindMember
    · exact ret

/-- Parameters that are declared add nothing to the lists of functions. -/
theorem declareParameters {a : Arena} {scope : ScopeId} {parameters : List NodeId} :
    Lists yields (Binder.declareParameters a scope parameters) [] := by
  refine forInPlain fun p _ => ?_
  cases hform : a.form? p with
  | none => exact ⟨pure (), rfl, ret⟩
  | some form =>
    cases form with
    | parameter category title hint defaultValue =>
      cases title with
      | none => exact ⟨pure (), rfl, ret⟩
      | some title => exact ⟨_, rfl, declareNode (d := ⟨.parameter, p, none, hint, []⟩)⟩
    | _ => exact ⟨pure (), rfl, ret⟩

/-- An entry that is added for the function around is that of a node that belongs to it. -/
theorem noteOwner {context : WalkContext} {n : NodeId} {step : FunctionFrame → Binder Unit}
    {listed : Bool} {r : α}
    (hstep : ∀ frame, Lists yields (step frame) (if listed then [(frame.node, n)] else [])) :
    Lists yields (do
        for frame in context.function.toList do step frame
        return r)
      (owned (if listed then [(context.owner, n)] else [])) := by
  have howner : owned (if listed then [(context.owner, n)] else []) =
      (context.function.toList.flatMap fun frame =>
        if listed then [(frame.node, n)] else []) ++ [] := by
    unfold WalkContext.owner
    cases listed <;> cases context.function <;> rfl
  rw [howner]
  exact (forIn fun frame _ => ⟨_, rfl, hstep frame⟩).bind fun _ => ret

/-- A node that opens no scope adds an entry for itself, if it is of a kind that is listed. -/
theorem visitPlain {a : Arena} {context : WalkContext} {n : NodeId} {form : Form} :
    Lists yields (Binder.visitPlain a context n form)
      (owned (if form.kind.isListed yields then [(context.owner, n)] else [])) := by
  unfold Binder.visitPlain
  split
  · exact (bindTarget _).andThen fun _ => ret
  · exact ite (andThen (bindTarget _) fun _ => ret) ret
  · exact (bindTarget _).andThen fun _ => ret
  · exact andThen (note (fun _ => rfl) fun _ => rfl) fun b => (bindTarget _).andThen fun _ => ret
  · exact (bindTarget _).andThen fun _ => ret
  · exact (bindTarget _).andThen fun _ => ret
  · exact declareNode.andThen fun _ => ret
  · exact (forInPlain fun _ _ => ⟨_, rfl, declareNode⟩).andThen fun _ => ret
  · exact declareNode.andThen fun _ => ret
  · exact andThen (note (fun _ => rfl) fun _ => rfl) fun _ => ret
  · exact andThen (note (fun _ => rfl) fun _ => rfl) fun _ => ret
  · refine noteOwner fun frame b => ?_
    cases yields with
    | false => rfl
    | true => exact (List.append_nil _).symm
  · refine noteOwner fun frame b => ?_
    cases yields with
    | false => exact (List.append_nil _).symm
    | true => rfl
  · refine noteOwner fun frame b => ?_
    cases yields with
    | false => exact (List.append_nil _).symm
    | true => rfl
  · have hlisted : form.kind.isListed yields = false := by
      cases form <;> first | rfl | simp_all
    rw [hlisted]
    exact ret

/-! ## The walks of constructs -/

/-- A scope that is opened adds nothing to the lists of functions. -/
theorem openScope {kind : ScopeKind} {node : NodeId} {parent : Option ScopeId} :
    Lists yields (Binder.openScope kind node parent) [] := note (fun _ => rfl) fun _ => rfl

section Walks

variable {a : Arena} {walk : WalkContext → NodeId → Binder Unit} {context : WalkContext}
  {n : NodeId} {E : Option NodeId → NodeId → List (NodeId × NodeId)}
  (hwalk : ∀ (context : WalkContext) m, Lists yields (walk context m) (E context.owner m))
include hwalk

/-- The walks of several nodes add what they add one after the other. -/
theorem walkEach (ids : List NodeId) : Lists yields (do for child in ids do walk context child)
    (ids.flatMap (E context.owner)) :=
  forIn fun m _ => ⟨_, rfl, hwalk context m⟩

/-- The walk of parameters adds what their type hints and default values add. -/
theorem walkParameters (parameters : List NodeId) :
    Lists yields (Binder.walkParameters a walk context parameters)
      ((a.parameterParts parameters).flatMap (E context.owner)) := by
  unfold Arena.parameterParts
  rw [List.flatMap_assoc]
  refine forIn fun p _ => ?_
  cases hform : a.form? p with
  | none => exact ⟨pure (), rfl, ret⟩
  | some form =>
    cases form with
    | parameter category title hint defaultValue => exact ⟨_, rfl, walkEach hwalk _⟩
    | _ => exact ⟨pure (), rfl, ret⟩

/-- The walk of a class adds what its parts add. -/
theorem walkClass {decorators arguments : List NodeId} {title body : NodeId} :
    Lists yields (Binder.walkClass a walk context n decorators title arguments body)
      ((a.walkedAround (.classDef decorators title arguments body)).flatMap
        (E context.owner)) := by
  refine congr ?_ (List.flatMap_append ..).symm
  refine (walkEach hwalk _).bind fun _ => declareNode.andThen fun _ => ?_
  refine openScope.andThen fun scope => congr (hwalk { context with scope } body) ?_
  exact (List.append_nil _).symm

/-- The walk of a function adds what its parts add, and its body adds for the function. -/
theorem walkFunction {decorators parameters : List NodeId} (isAsync : Bool) {title body : NodeId}
    {returnHint : Option NodeId} :
    Lists yields (Binder.walkFunction a walk context n decorators title parameters returnHint body)
      ((a.walkedAround (.function decorators isAsync title parameters returnHint body)).flatMap
        (E context.owner) ++ E (some n) body) := by
  unfold Arena.walkedAround
  rw [List.flatMap_append, List.flatMap_append, List.append_assoc, List.append_assoc]
  refine (walkEach hwalk _).bind fun _ => (walkParameters hwalk _).bind fun _ => ?_
  refine (walkEach hwalk _).bind fun _ => declareNode.andThen fun _ => ?_
  refine andThen (note (fun _ => rfl) fun _ => rfl) fun around => ?_
  refine openScope.andThen fun scope => declareParameters.andThen fun _ => ?_
  exact hwalk ⟨scope, some ⟨n, _⟩⟩ body

/-- The walk of a function without a name adds what its parts add, and its value adds for the
function. -/
theorem walkLambda {parameters : List NodeId} {expression : NodeId} :
    Lists yields (Binder.walkLambda a walk context n parameters expression)
      ((a.walkedAround (.lambda parameters expression)).flatMap (E context.owner) ++
        E (some n) expression) := by
  refine (walkParameters hwalk _).bind fun _ => openScope.andThen fun scope => ?_
  exact declareParameters.andThen fun _ => hwalk ⟨scope, some ⟨n, none⟩⟩ expression

/-- The walk of a clause of a comprehension adds what its parts add that are walked inside. -/
theorem walkClause (clause : NodeId) (isFirst : Bool) :
    Lists yields (Binder.walkClause a walk context clause isFirst)
      ((a.clauseParts clause isFirst).flatMap (E context.owner)) := by
  unfold Binder.walkClause Arena.clauseParts
  cases a.form? clause with
  | none => exact ret
  | some form =>
    cases form with
    | comprehensionFor isAsync target iterable =>
      refine (bindTarget _).andThen fun _ => (hwalk context target).bind fun _ => ?_
      cases isFirst with
      | true => exact ret
      | false => exact congr (hwalk context iterable) (List.append_nil _).symm
    | _ => exact congr (hwalk context clause) (List.append_nil _).symm

/-- The walk of a comprehension adds what its parts add. -/
theorem walkComprehension {expression : NodeId} {clauses : List NodeId} :
    Lists yields (Binder.walkComprehension a walk context n expression clauses)
      ((a.walkedAround (.comprehension expression clauses)).flatMap (E context.owner)) := by
  unfold Arena.walkedAround
  rw [List.flatMap_append, List.flatMap_append, List.append_assoc, List.flatMap_assoc]
  unfold Binder.walkComprehension
  extract_lets rest
  have hrest : ∀ r, Lists yields (rest r) ((clauses.zipIdx.flatMap fun e =>
      (a.clauseParts e.1 (e.2 == 0)).flatMap (E context.owner)) ++
        [expression].flatMap (E context.owner)) := by
    refine fun _ => openScope.andThen fun scope => ?_
    refine (forIn fun e _ => ⟨_, rfl, walkClause hwalk e.1 (e.2 == 0)⟩).bind fun _ => ?_
    exact congr (hwalk { context with scope } expression) (List.append_nil _).symm
  unfold Arena.firstIterable
  generalize clauses.head?.bind a.form? = head
  cases head with
  | none => exact hrest ⟨⟩
  | some form =>
    cases form with
    | comprehensionFor isAsync target iterable =>
      exact congr ((hwalk context iterable).bind hrest) (by simp)
    | _ => exact hrest ⟨⟩

/-- The walk of what opens no scope adds an entry for the node, if it is of a kind that is listed,
and what its parts add. -/
theorem walkPlain {form : Form} :
    Lists yields (do
        if ← Binder.visitPlain a context n form then
          for child in form.children do walk context child)
      (owned (if form.kind.isListed yields then [(context.owner, n)] else []) ++
        (if form.namesOnly then [] else form.children).flatMap (E context.owner)) := by
  refine visitPlain.bindOf (P := (· = !form.namesOnly)) (fun b => Binds.visitPlain_result b)
    fun goesOn hgoesOn => ?_
  subst hgoesOn
  cases form.namesOnly with
  | true => exact ret
  | false => exact walkEach hwalk _

/-- The walk of a node adds an entry for it, if it is of a kind that is listed, and what is added
where the walk goes on. -/
theorem walkNode {form : Form} (hform : a.form? n = some form) :
    Lists yields (Binder.walkNode a walk context n)
      (owned (if form.kind.isListed yields then [(context.owner, n)] else []) ++
        (a.steps context.owner n form).flatMap fun step => E step.1 step.2) := by
  unfold Binder.walkNode Arena.steps
  rw [hform, List.flatMap_append, List.flatMap_map, List.flatMap_map]
  cases form with
  | classDef => exact congr (walkClass hwalk) (List.append_nil _).symm
  | function decorators isAsync =>
    exact congr (walkFunction hwalk isAsync) (congrArg _ (List.append_nil _).symm)
  | lambda => exact congr (walkLambda hwalk) (congrArg _ (List.append_nil _).symm)
  | comprehension => exact congr (walkComprehension hwalk) (List.append_nil _).symm
  | _ => exact congr (walkPlain hwalk) (congrArg _ (List.append_nil _).symm)

end Walks

/-- A walk adds the entries of the nodes that it meets. -/
theorem walk {a : Arena} (fuel : Nat) (context : WalkContext) (n : NodeId) :
    Lists yields (Binder.walk a fuel context n)
      (owned (a.met (NodeKind.isListed yields) fuel context.owner n)) := by
  induction fuel generalizing context n with
  | zero => exact ret
  | succ fuel ih =>
    unfold Binder.walk Arena.met
    cases hform : a.form? n with
    | none =>
      unfold Binder.walkNode
      rw [hform]
      exact ret
    | some form =>
      refine congr (walkNode (E := fun owner m =>
        owned (a.met (NodeKind.isListed yields) fuel owner m)) ih hform) ?_
      simp only [owned, List.filterMap_append, List.filterMap_flatMap]

end Lists

end TypeProbe
