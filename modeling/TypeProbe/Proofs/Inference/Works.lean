import TypeProbe.Proofs.Inference.Memory
import TypeProbe.Proofs.Scope.Known

/-!
# What an evaluation does

An evaluation is looked at without the answers to its questions: it is assumed of every answer that
it is as the question demands (`Query.AnswerIn`) and that the memory has grown meanwhile. An
evaluation `Works` from a memory if, under this assumption, it makes a sound memory that has grown,
with a result as it is described, and asks only questions that it may ask. What may be asked is a
parameter, so that the same rules tell what questions lead to.
-/

namespace TypeProbe

/-- The handles in a question are handles of the store. -/
def Query.In (s : TypeStore) : Query → Prop
  | .call callee arguments => callee.In s ∧ s.HasAll arguments
  | .member object _ => object.In s
  | .node _ | .classDef _ | .function _ | .declaration _ | .hint _ | .returned _ => True

/-- A question is about a declaration of the module, or about something else. -/
def Query.Known (p : Program) : Query → Prop
  | .declaration d => p.bindings.Knows d
  | .node _ | .classDef _ | .function _ | .hint _ | .call _ _ | .member _ _ | .returned _ => True

/-- The handles in an answer are handles of the store. -/
def Query.AnswerIn (s : TypeStore) : (q : Query) → q.Answer → Prop
  | .node _, answer | .member _ _, answer => ∀ t ∈ answer, t.In s
  | .classDef _, answer | .function _, answer => ∀ t ∈ answer, t.In s
  | .declaration _, answer | .hint _, answer | .call _ _, answer | .returned _, answer =>
    answer.In s

/-- Where a value stands among those that lead to one another for their members: instances of a
class come first, and anything else comes after its parts. -/
def TypeStore.memberRank (s : TypeStore) (object : TypeId) : Nat :=
  match s.shape? object with
  | some (.nominal ..) => 1
  | _ => object.index + 2

/-- Whether a question is for the type of a call. -/
def Query.isCall : Query → Bool
  | .call _ _ => true
  | _ => false

/-- Where a question stands among those that lead to one another without taking energy, calls left
aside. Hints lead to those further down the tree, and members to members of parts. -/
def Query.rank (s : TypeStore) : Query → Nat
  | .node _ | .classDef _ | .returned _ => 0
  | .function _ => 1
  | .declaration _ | .call _ _ => 2
  | .hint n => n + 3
  | .member object _ => s.memberRank object

namespace Dialogue

variable {α β : Type} {may : Query → Memory → Prop}
  {answers : (q : Query) → Memory → q.Answer → Memory → Prop} {post : α → Prop}

instance : LawfulMonad Dialogue := LawfulMonad.mk' Dialogue
  (fun d => by
    induction d with
    | done b => rfl
    | ask q m next ih => exact congrArg (ask q m) (funext fun a => funext fun m' => ih a m'))
  (fun a f => rfl)
  (fun d f g => by
    induction d with
    | done b => rfl
    | ask q m next ih => exact congrArg (ask q m) (funext fun a => funext fun m' => ih a m'))

/-- A dialogue that asks only what may be asked and comes to an end as it is described, whatever
the answers are as long as they are as they should be. -/
def Meets (may : Query → Memory → Prop)
    (answers : (q : Query) → Memory → q.Answer → Memory → Prop) :
    Dialogue α → (α → Prop) → Prop
  | .done a, post => post a
  | .ask q m next, post => may q m ∧ ∀ a m', answers q m a m' → (next a m').Meets may answers post

/-- What is known of the end may be weakened. -/
theorem Meets.weaken {d : Dialogue α} {post' : α → Prop} (h : d.Meets may answers post)
    (hpost : ∀ a, post a → post' a) : d.Meets may answers post' := by
  induction d with
  | done a => exact hpost a h
  | ask q m next ih => exact ⟨h.1, fun a m' ha => ih a m' (h.2 a m' ha)⟩

/-- Less may be known of answers. -/
theorem Meets.of_answers {d : Dialogue α}
    {answers' : (q : Query) → Memory → q.Answer → Memory → Prop} (h : d.Meets may answers post)
    (hanswers : ∀ {q m a m'}, answers' q m a m' → answers q m a m') :
    d.Meets may answers' post := by
  induction d with
  | done r => exact h
  | ask q m next ih => exact ⟨h.1, fun a m' ha => ih a m' (h.2 a m' (hanswers ha))⟩

/-- One dialogue after another. -/
theorem Meets.bind {d : Dialogue α} {f : α → Dialogue β} {post' : β → Prop}
    (h : d.Meets may answers post) (hf : ∀ a, post a → (f a).Meets may answers post') :
    (d.bind f).Meets may answers post' := by
  induction d with
  | done a => exact hf a h
  | ask q m next ih => exact ⟨h.1, fun a m' ha => ih a m' (h.2 a m' ha)⟩

end Dialogue

open TypeStore

namespace Evaluation

/-- Questions may be asked of sound memories, and with handles that are there. -/
def Fit (p : Program) (may : Query → Memory → Prop) (q : Query) (m : Memory) : Prop :=
  m.Sound p.builtins ∧ q.In m.store ∧ may q m

/-- Answers come with a sound memory that has grown, and with handles that are there. -/
def Fits (p : Program) (q : Query) (m : Memory) (a : q.Answer) (m' : Memory) : Prop :=
  m'.Sound p.builtins ∧ m.Grows m' ∧ q.AnswerIn m'.store a

/-- An evaluation that asks only what may be asked, and makes a sound memory that has grown and a
result as it is described. -/
def Works {α : Type} (p : Program) (may : Query → Memory → Prop) (m : Memory) (e : Evaluation α)
    (post : α → TypeStore → Prop) : Prop :=
  m.Sound p.builtins → (e m).Meets (Fit p may) (Fits p) fun r =>
    r.2.Sound p.builtins ∧ m.Grows r.2 ∧ post r.1 r.2.store

/-- From a memory on, all questions of a kind may be asked. -/
def Allows {ι : Type} (may : Query → Memory → Prop) (m : Memory) (f : ι → Query) : Prop :=
  ∀ m', m.Grows m' → ∀ i, may (f i) m'

/-- The questions of a kind may be asked further on. -/
theorem Allows.mono {ι : Type} {may : Query → Memory → Prop} {m m' : Memory} {f : ι → Query}
    (h : Allows may m f) (hgrows : m.Grows m') : Allows may m' f :=
  fun m'' hm'' => h m'' (hgrows.trans hm'')

/-- From a memory on, all known questions may be asked. -/
abbrev Free (p : Program) (may : Query → Memory → Prop) (m : Memory) : Prop :=
  Allows may m fun q : Subtype (Query.Known p) => q.1

/-- From a memory on, all known declarations may be asked for. -/
abbrev AllowsDeclarations (p : Program) (may : Query → Memory → Prop) (m : Memory) : Prop :=
  Allows may m fun d : Subtype p.bindings.Knows => .declaration d.1

/-- All known questions may be asked, and hence those of a kind. -/
theorem Allows.of_all {p : Program} {ι : Type} {may : Query → Memory → Prop} {m : Memory}
    {f : ι → Query} (h : Free p may m) (hf : ∀ i, (f i).Known p) : Allows may m f :=
  fun m' hm' i => h m' hm' ⟨f i, hf i⟩

/-- All known questions may be asked, and hence this. -/
theorem Allows.now {p : Program} {may : Query → Memory → Prop} {m : Memory} (h : Free p may m)
    {q : Query} (hq : q.Known p) : may q m := h m (.refl m) ⟨q, hq⟩

namespace Works

variable {α β : Type} {p : Program} {may : Query → Memory → Prop} {m : Memory} {e : Evaluation α}
  {post : α → TypeStore → Prop}

/-- A result that is given at once leaves the memory. -/
theorem ret {a : α} (h : m.Sound p.builtins → post a m.store) : Works p may m (pure a) post :=
  fun hm => ⟨hm, .refl m, h hm⟩

/-- A memory may be taken to be sound. -/
theorem intro (h : m.Sound p.builtins → Works p may m e post) : Works p may m e post :=
  fun hm => h hm hm

/-- What is known of a result may be weakened. -/
theorem weaken {post' : α → TypeStore → Prop} (h : Works p may m e post)
    (hpost : ∀ a m', m'.Sound p.builtins → m.Grows m' → post a m'.store → post' a m'.store) :
    Works p may m e post' :=
  fun hm => (h hm).weaken fun _ hr => ⟨hr.1, hr.2.1, hpost _ _ hr.1 hr.2.1 hr.2.2⟩

/-- One evaluation after another. -/
theorem bind {f : α → Evaluation β} {post' : β → TypeStore → Prop} (h : Works p may m e post)
    (hf : ∀ a m', m.Grows m' → post a m'.store → Works p may m' (f a) post') :
    Works p may m (e >>= f) post' := by
  intro hm
  refine (h hm).bind fun r hr => ?_
  obtain ⟨hsound, hgrows, hpost⟩ := hr
  exact (hf r.1 r.2 hgrows hpost hsound).weaken fun r' hr' =>
    ⟨hr'.1, hgrows.trans hr'.2.1, hr'.2.2⟩

/-- A function of the result. -/
theorem map {f : α → β} {post' : β → TypeStore → Prop} (h : Works p may m e post)
    (hf : ∀ a s, post a s → post' (f a) s) : Works p may m (f <$> e) post' := by
  rw [map_eq_pure_bind]
  exact h.bind fun a m' _ ha => ret fun _ => hf a m'.store ha

/-- The memory may be looked at. -/
theorem get {f : Memory → Evaluation β} {post : β → TypeStore → Prop}
    (h : Works p may m (f m) post) : Works p may m (MonadState.get >>= f) post := h

/-- The store may be looked at. -/
theorem store {f : TypeStore → Evaluation β} {post : β → TypeStore → Prop}
    (h : Works p may m (f m.store) post) : Works p may m (Evaluation.store >>= f) post := h

/-- A question may be asked. -/
theorem ask {q : Query} (hmay : may q m) (hq : q.In m.store) :
    Works p may m (Evaluation.ask q) fun a s => q.AnswerIn s a :=
  fun hm => ⟨⟨hm, hq, hmay⟩, fun _ _ ha => ha⟩

/-- What works on stores may be done to the store. -/
theorem onStore {work : TypeStore → α × TypeStore} (h : m.store.Works work post) :
    Works p may m (Evaluation.onStore work) post := by
  intro hm
  obtain ⟨hsound, hgrows, hpost⟩ := h hm.store
  exact ⟨hm.withStore hsound hgrows, .withStore hgrows, hpost⟩

/-- What works on stores may be done to the store. -/
theorem edit {change : TypeStore → TypeStore}
    (h : m.store.Works (fun s => ((), change s)) fun _ _ => True) :
    Works p may m (Evaluation.edit change) fun _ _ => True := by
  intro hm
  obtain ⟨hsound, hgrows, -⟩ := h hm.store
  exact ⟨hm.withStore hsound hgrows, .withStore hgrows, trivial⟩

/-- A memory may be changed into a sound one that has grown. -/
theorem change {change : Memory → Memory}
    (h : m.Sound p.builtins → (change m).Sound p.builtins ∧ m.Grows (change m)) :
    Works p may m (modify change) fun _ _ => True :=
  fun hm => ⟨(h hm).1, (h hm).2, trivial⟩

/-- A memory may be changed into a sound one that has grown, before anything else is done. -/
theorem modify {change : Memory → Memory} {next : PUnit → Evaluation β}
    {post : β → TypeStore → Prop}
    (h : m.Sound p.builtins → (change m).Sound p.builtins ∧ m.Grows (change m))
    (hnext : Works p may (change m) (next ⟨⟩) post) :
    Works p may m ((modify change : Evaluation PUnit) >>= next) post := by
  intro hm
  obtain ⟨hsound, hgrows⟩ := h hm
  exact (hnext hsound).weaken fun _ hr => ⟨hr.1, hgrows.trans hr.2.1, hr.2.2⟩

/-! ## Lists -/

/-- An evaluation for each element of a list. -/
theorem mapM {f : α → Evaluation β} {post : β → TypeStore → Prop} {as : List α}
    (hmono : ∀ {b s s'}, post b s → s.Grows s' → post b s')
    (h : ∀ a ∈ as, ∀ m', m.Grows m' → Works p may m' (f a) post) :
    Works p may m (as.mapM f) fun bs s => ∀ b ∈ bs, post b s := by
  induction as generalizing m with
  | nil => exact ret fun _ => nofun
  | cons a as ih =>
    rw [List.mapM_cons]
    refine (h a List.mem_cons_self m (.refl m)).bind fun b m1 h1 hb => ?_
    refine (ih fun a ha m' hm' => h a (List.mem_cons_of_mem _ ha) m' (h1.trans hm')).bind
      fun bs m2 h2 hbs => ?_
    exact ret fun _ => List.forall_mem_cons.2 ⟨hmono hb h2.store, hbs⟩

/-- An evaluation for each element of a list, of which some have results. -/
theorem filterMapM {f : α → Evaluation (Option β)} {post : β → TypeStore → Prop} {as : List α}
    (hmono : ∀ {b s s'}, post b s → s.Grows s' → post b s')
    (h : ∀ a ∈ as, ∀ m', m.Grows m' → Works p may m' (f a) fun b s => ∀ c ∈ b, post c s) :
    Works p may m (as.filterMapM f) fun bs s => ∀ b ∈ bs, post b s := by
  induction as generalizing m with
  | nil => exact ret fun _ => nofun
  | cons a as ih =>
    rw [List.filterMapM_cons]
    refine (h a List.mem_cons_self m (.refl m)).bind fun b m1 h1 hb => ?_
    have hrest := ih fun a ha m' hm' => h a (List.mem_cons_of_mem _ ha) m' (h1.trans hm')
    cases b with
    | none => exact hrest
    | some b =>
      refine hrest.bind fun bs m2 h2 hbs => ?_
      exact ret fun _ => List.forall_mem_cons.2 ⟨hmono (hb b rfl) h2.store, hbs⟩

/-- An evaluation that goes through a list with what it has so far. -/
theorem foldlM {f : β → α → Evaluation β} {post : β → TypeStore → Prop} {as : List α} {b : β}
    (hb : post b m.store)
    (h : ∀ b, ∀ a ∈ as, ∀ m', m.Grows m' → post b m'.store → Works p may m' (f b a) post) :
    Works p may m (as.foldlM f b) post := by
  induction as generalizing m b with
  | nil => exact ret fun _ => hb
  | cons a as ih =>
    rw [List.foldlM_cons]
    refine (h b a List.mem_cons_self m (.refl m) hb).bind fun b' m1 h1 hb' => ?_
    exact ih hb' fun b a ha m' hm' => h b a (List.mem_cons_of_mem _ ha) m' (h1.trans hm')

/-- An evaluation for each element of a list. -/
theorem forM {f : α → Evaluation Unit} {as : List α}
    (h : ∀ a ∈ as, ∀ m', m.Grows m' → Works p may m' (f a) fun _ _ => True) :
    Works p may m (as.forM f) fun _ _ => True := by
  induction as generalizing m with
  | nil => exact ret fun _ => trivial
  | cons a as ih =>
    refine (h a List.mem_cons_self m (.refl m)).bind fun _ m1 h1 _ => ?_
    exact ih fun a ha m' hm' => h a (List.mem_cons_of_mem _ ha) m' (h1.trans hm')

end Works

variable {p : Program} {may : Query → Memory → Prop} {m : Memory}

/-! ## Questions -/

/-- The type of a node may be asked for. -/
theorem works_askNode (h : Allows may m Query.node) (n : NodeId) :
    Works p may m (ask (.node n)) fun t s => ∀ id ∈ t, id.In s :=
  .ask (h m (.refl m) n) trivial

/-- The types of a class may be asked for. -/
theorem works_askClassDef (h : Allows may m Query.classDef) (n : NodeId) :
    Works p may m (ask (.classDef n)) fun t s => ∀ types ∈ t, types.In s :=
  .ask (h m (.refl m) n) trivial

/-- The types of a function may be asked for. -/
theorem works_askFunction (h : Allows may m Query.function) (n : NodeId) :
    Works p may m (ask (.function n)) fun t s => ∀ types ∈ t, types.In s :=
  .ask (h m (.refl m) n) trivial

/-- The type that a declaration gives may be asked for. -/
theorem works_askDeclaration (h : AllowsDeclarations p may m) {d : Declaration}
    (hd : p.bindings.Knows d) : Works p may m (ask (.declaration d)) TypeId.In :=
  .ask (h m (.refl m) ⟨d, hd⟩) trivial

/-- The type that a hint denotes may be asked for. -/
theorem works_askHint (h : Allows may m Query.hint) (n : NodeId) :
    Works p may m (ask (.hint n)) TypeId.In :=
  .ask (h m (.refl m) n) trivial

/-- The type that a function returns may be asked for. -/
theorem works_askReturned (h : Allows may m Query.returned) (d : FunctionId) :
    Works p may m (ask (.returned d)) TypeId.In :=
  .ask (h m (.refl m) d) trivial

/-- A member may be asked for. -/
theorem works_askMember {object : TypeId} {name : String} (h : may (.member object name) m)
    (hobject : object.In m.store) :
    Works p may m (ask (.member object name)) fun t s => ∀ id ∈ t, id.In s :=
  .ask h hobject

/-- The type of a call may be asked for. -/
theorem works_askCall {callee : TypeId} {arguments : List TypeId}
    (h : may (.call callee arguments) m)
    (hcallee : callee.In m.store) (harguments : m.store.HasAll arguments) :
    Works p may m (ask (.call callee arguments)) TypeId.In :=
  .ask h ⟨hcallee, harguments⟩

/-- A type that may be missing is there, or is the one of which nothing is known. -/
theorem getD_in {s : TypeStore} {t : Option TypeId} (hs : s.Sound) (h : ∀ id ∈ t, id.In s) :
    (t.getD .unknown).In s := by
  cases t with
  | none => exact hs.basic_in (by decide)
  | some id => exact h id rfl

/-- That nothing is known is a type. -/
theorem works_unknown : Works p may m (pure TypeId.unknown) TypeId.In :=
  .ret fun h => h.store.basic_in (by decide)

/-- The type of a node may be asked for. -/
theorem works_typeOf (h : Allows may m Query.node) (n : NodeId) :
    Works p may m (typeOf n) TypeId.In :=
  (works_askNode h n).bind fun _ _ _ ht => .ret fun hm => getD_in hm.store ht

/-- A member may be called. -/
theorem works_callMember {object : TypeId} {name : String} {arguments : List TypeId}
    (hmember : may (.member object name) m)
    (hcall : ∀ m', m.Grows m' → ∀ callee, may (.call callee arguments) m')
    (hobject : object.In m.store) (harguments : m.store.HasAll arguments) :
    Works p may m (callMember object name arguments) fun t s => ∀ id ∈ t, id.In s := by
  refine (works_askMember hmember hobject).bind fun found m1 h1 hfound => ?_
  cases found with
  | none => exact .ret fun _ => nofun
  | some callee =>
    exact (works_askCall (hcall m1 h1 callee) (hfound callee rfl)
      (harguments.mono h1.store)).bind fun t _ _ ht => .ret fun _ => forall_mem_some ht

/-- A member may be called. -/
theorem works_callMemberD {object : TypeId} {name : String} {arguments : List TypeId}
    (hmember : may (.member object name) m)
    (hcall : ∀ m', m.Grows m' → ∀ callee, may (.call callee arguments) m')
    (hobject : object.In m.store) (harguments : m.store.HasAll arguments) :
    Works p may m (callMemberD object name arguments) TypeId.In :=
  (works_callMember hmember hcall hobject harguments).bind fun _ _ _ ht =>
    .ret fun hm => getD_in hm.store ht

end Evaluation

end TypeProbe
