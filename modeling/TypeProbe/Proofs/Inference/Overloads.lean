import TypeProbe.Proofs.Inference.Joining
import TypeProbe.Proofs.Inference.Unpacking

/-!
# Overloads

The function definitions that a scope lists under one name may be overloads, each decorated with
`overload` alone, with a function after them (`Program.Overloads`). Whatever a checker has been
asked, each of them is joined to those before it in the order of the text, and nothing is missing
but the first ones (`Checker.Interviewed.unites_overloads`). Those are missing only if the
evaluation of a decorator has been cut off (`Query.CutsOff`), or if the evaluation of one of the
definitions has led to the next one while it had its own type only (`Query.Overtakes`). So what a
function is joined to may depend on what has been asked first.

Each rule leads from an orderly memory to one in which functions have been joined, if the answers to
its questions do (`Query.meets_rule`). From that it passes on to the answers
(`Query.joins_of_answer`), and to a checker that has answered any number of questions
(`Checker.Interviewed.joins`).
-/

namespace TypeProbe

open Definitions TypeStore

namespace Query

open Evaluation

/-- On the way from a question, a guard stands in the way of a name of `overload`. -/
def CutsOff (p : Program) (e : NodeId) (a : State) : Prop :=
  ∃ d m, p.NamesOverload e d ∧ Reaches p a (.node e, m) ∧ m.Blocks e d

/-- On the way from a question, the evaluation of a function definition of which its own type is
kept leads to another one of which nothing is kept. -/
def Overtakes (p : Program) (n k : NodeId) (a : State) : Prop :=
  ∃ m₁ q m₂ m₃, Reaches p a (.function n, m₁) ∧ Leads p (.function n, m₁) (q, m₂) ∧
    m₂.functions.lookup n ≠ none ∧ Reaches p (q, m₂) (.function k, m₃) ∧
    m₃.functions.lookup k = none

variable {p : Program} {cut : NodeId → Prop} {overtaken : NodeId → NodeId → Prop} {a b : State}

/-- What a question leads to is on the way from it. -/
theorem CutsOff.head {e : NodeId} (hleads : Leads p a b) (h : CutsOff p e b) : CutsOff p e a := by
  obtain ⟨d, m, hd, hreaches, hblocks⟩ := h
  exact ⟨d, m, hd, .head hleads hreaches, hblocks⟩

/-- What a question leads to is on the way from it. -/
theorem Overtakes.head {n k : NodeId} (hleads : Leads p a b) (h : Overtakes p n k b) :
    Overtakes p n k a := by
  obtain ⟨m₁, q, m₂, m₃, hreaches, hrest⟩ := h
  exact ⟨m₁, q, m₂, m₃, .head hleads hreaches, hrest⟩

/-- What is known of a question that is asked of an orderly memory, and of what happens on the way
from it. -/
structure Orderly (p : Program) (cut : NodeId → Prop) (overtaken : NodeId → NodeId → Prop)
    (a : State) : Prop extends a.2.Orderly p cut where
  /-- It is about what is there. -/
  sound : Sound p a
  /-- It is about a declaration of the module, or about something else. -/
  known : a.1.Known p
  /-- Names of `overload` that a guard stands in the way of have been cut off. -/
  cutsOff : ∀ e, CutsOff p e a → cut e
  /-- Functions that are overtaken have been overtaken. -/
  overtakes : ∀ n k, Overtakes p n k a → overtaken n k

/-- The same is known of what a question leads to. -/
theorem Orderly.leads (htree : p.arena.ChildrenFirst) (h : Orderly p cut overtaken a)
    (hb : b.2.Orderly p cut) (hleads : Leads p a b) : Orderly p cut overtaken b where
  toOrderly := hb
  sound := (hleads.permits htree h.sound).1
  known := ((works_rule_known htree h.sound.2 h.sound.1).fit_of_asks
    (fun hfit => fits_of_answer htree ⟨hfit.1, hfit.2.1⟩) hleads).2.2
  cutsOff e he := h.cutsOff e (he.head hleads)
  overtakes n k hk := h.overtakes n k (hk.head hleads)

/-- What is known of an answer: functions have been joined, and a name of `overload` has been read
and has left what is there. -/
def Arranges (p : Program) (cut : NodeId → Prop) (overtaken : NodeId → NodeId → Prop) (q : Query)
    (m : Memory) (r : q.Answer) (m' : Memory) : Prop :=
  m.Joins p cut overtaken m' ∧ match q, r with
    | .node e, type? => ∀ d, p.NamesOverload e d → (∃ t, type? = some t ∧ p.Reads cut e t) ∧
        m'.store = m.store ∧ m'.functions = m.functions
    | _, _ => True

/-- Functions have been joined by an answer to what is no name of `overload`. -/
theorem Arranges.of_joins {q : Query} {m m' : Memory} {r : q.Answer}
    (hnode : ∀ e d, q = .node e → ¬p.NamesOverload e d) (h : m.Joins p cut overtaken m') :
    q.Arranges p cut overtaken m r m' := by
  refine ⟨h, ?_⟩
  cases q with
  | node e => exact fun d hd => absurd hd (hnode e d rfl)
  | _ => trivial

/-- The rules for other questions than those for names of `overload`, their imports and functions
that are decorated with them at most join functions as answers do. -/
theorem sustains_rule {q : Query} (hnode : ∀ e d, q = .node e → ¬p.NamesOverload e d)
    (hfunction : ∀ n, q = .function n → ¬p.Stacked n)
    (hdeclaration : ∀ d, q = .declaration d → ∀ e d', p.NamesOverload e d' → d'.node ≠ d.node) :
    ChangesBy (Memory.Sustains p cut overtaken) (q.rule p) := by
  have hstore : ∀ (m : Memory) (s : TypeStore), m.store.Stays s →
      m.Sustains p cut overtaken { m with store := s } :=
    fun m s hs hm => .of_functions hm hs rfl (hm.toReads.mono hs rfl rfl)
  obtain hplain | hdefinition := Bool.eq_false_or_eq_true q.isPlain
  · refine changes_plain p (fun d hd m type hm => ?_) hplain
    exact .of_functions hm (.refl _) rfl (hm.toReads.keepDeclaration fun e d' hd' heq =>
      absurd heq (hdeclaration d hd e d' hd'))
  cases q with
  | node e =>
    refine changes_node p (fun m type hm => ?_) fun _ m f _ => hstore m _ (.addFunction _ _)
    exact .of_functions hm (.refl _) rfl (hm.toReads.keepNode fun d hd => absurd hd (hnode e d rfl))
  | classDef n =>
    refine fun m => changes_classDef p (fun m types hm => ?_)
      (fun c _ => hstore m _ (.addClass _ _)) fun m' change _ => hstore m' _ (.modifyClass _ _ _)
    exact .of_functions hm (.refl _) rfl (hm.toReads.mono (.refl _) rfl rfl)
  | function n =>
    refine changes_function p (fun m types hm => ?_) fun _ m f _ => hstore m _ (.addFunction _ _)
    refine .of_lookup hm (.refl _) (fun k hk => ?_) (hm.toReads.mono (.refl _) rfl rfl)
    refine lookup_cons_of_ne ?_ _ _
    rintro rfl
    exact hfunction k rfl hk
  | _ => cases hdefinition

/-- What is asked while a function has its own type only leads to functions after it only if they
overtake it. -/
theorem minds_of_leads {n : NodeId} {m m₁ m₂ : Memory} {q : Query} {r : q.Answer}
    (h : ∀ k, Overtakes p n k (.function n, m) → overtaken n k)
    (hleads : Leads p (.function n, m) (q, m₁)) (hanswer : q.answer p m₁ = some (r, m₂)) :
    Memory.Minds p overtaken n m₁ m₂ := by
  intro hkept
  refine ⟨?_, fun k _ _ hfree hnew => h k ?_⟩
  · obtain ⟨t, ht⟩ := Option.ne_none_iff_exists'.1 hkept
    rw [(remembers_of_answer hanswer).functions.lookup_of_some ht]
    exact Option.some_ne_none t
  · -- Nothing is kept of it by answers that do not lead to it.
    by_contra hnot
    have hends : Ends p (q, m₁) := answer_isSome_iff_ends.1 (Option.isSome_of_eq_some hanswer)
    have hsame : SameEntry k m₁ m₂ := lookup_eq_of_not_reaches hends (fun m₃ hreaches hfree₃ =>
      hnot ⟨m, q, m₁, m₃, .refl, hleads, hkept, hreaches, hfree₃⟩) hanswer
    exact hnew (hsame.trans hfree)

/-- What follows on a question that is asked of an orderly memory is as it should be, if so is what
it asks. -/
theorem meets_rule {root : NodeId} (htree : p.arena.ChildrenFirst) (hrooted : p.arena.Rooted root)
    (hbindings : p.bindings = Bindings.ofTree p.arena root)
    (hbuiltins : p.builtins = Builtins.foreknown.1) (ha : Orderly p cut overtaken a) :
    (a.1.rule p a.2).Meets (fun q m => Leads p a (q, m) → Orderly p cut overtaken (q, m))
      (fun q m r m' => Leads p a (q, m) ∧ q.answer p m = some (r, m') ∧
        q.Arranges p cut overtaken m r m')
      fun r => a.1.Arranges p cut overtaken a.2 r.1 r.2 := by
  obtain ⟨q, m⟩ := a
  have hm : m.Orderly p cut := ha.toOrderly
  have hjoining : Joining p cut overtaken fun q' m₁ r m' => Leads p (q, m) (q', m₁) ∧
      q'.answer p m₁ = some (r, m') ∧ q'.Arranges p cut overtaken m₁ r m' :=
    { answer := fun h => h.2.1
      sustains := fun h _ => h.2.2.1
      reads := fun h hd _ => h.2.2.2 _ hd }
  have hleads : ∀ q' m', m'.Orderly p cut → Leads p (q, m) (q', m') →
      Orderly p cut overtaken (q', m') := fun q' m' h => ha.leads htree (b := (q', m')) h
  -- Names of `overload`, functions that are decorated with them at most and the imports of the name
  -- are looked at on their own; the other rules keep nothing of these.
  by_cases hname : ∃ e d, q = .node e ∧ p.NamesOverload e d
  · obtain ⟨e, d, rfl, hd⟩ := hname
    have hcut : m.Blocks e d → cut e := fun h => ha.cutsOff e ⟨d, m, hd, .refl, h⟩
    have hjoins : ∀ m', m'.Reads p cut ∧ m'.store = m.store ∧ m'.functions = m.functions →
        m.Joins p cut overtaken m' :=
      fun m' h => .of_functions hm (h.2.1 ▸ .refl _) h.2.2 h.1
    refine ((meets_overloadName hbuiltins hm.toReads hd hcut).of_answers fun h => h.2.1).imp
      (fun q' m' h => hleads q' m' (hjoins m' h).toOrderly) ?_
    rintro ⟨_, m'⟩ ⟨⟨t, rfl, ht⟩, h⟩
    refine ⟨hjoins m' h, fun d' _ => ⟨⟨t, rfl, ht⟩, h.2⟩⟩
  have hnode : ∀ e d, q = .node e → ¬p.NamesOverload e d := fun e d hq hd => hname ⟨e, d, hq, hd⟩
  by_cases hstacked : ∃ n, q = .function n ∧ p.Stacked n
  · obtain ⟨n, rfl, hn⟩ := hstacked
    exact (meets_function hbuiltins hjoining (fun h => minds_of_leads (ha.overtakes n) h.1 h.2.1) hn
      hm).imp hleads fun r h => .of_joins hnode h
  by_cases himport : ∃ d e d', q = .declaration d ∧ p.NamesOverload e d' ∧ d'.node = d.node
  · obtain ⟨d, e, d', rfl, hd', hsame⟩ := himport
    -- The import is the only declaration that its node makes.
    have hknown : p.bindings.Knows d := ha.known
    obtain ⟨scope, hfound⟩ := hd'.found
    have hknown' := Bindings.knows_of_lookup? hfound (List.mem_singleton.2 rfl)
    rw [hbindings] at hknown hknown'
    have heq := Bindings.declaration?_of_knows hrooted hknown
    rw [← hsame, Bindings.declaration?_of_knows hrooted hknown'] at heq
    obtain rfl := Option.some.inj heq
    obtain ⟨t, m', hrule, hstore, hfunctions, hreads, -⟩ :=
      exists_declaration hbuiltins hm.toReads hd'
    show (Names.declaration p d' m).Meets _ _ _
    rw [hrule]
    exact .of_joins (r := t) hnode (.of_functions hm (hstore ▸ .refl _) hfunctions hreads)
  · have hchanges : ChangesBy (Memory.Sustains p cut overtaken) (q.rule p) :=
      sustains_rule hnode (fun n hq hn => hstacked ⟨n, hq, hn⟩)
        fun d hq e d' hd' hsame => himport ⟨d, e, d', hq, hd', hsame⟩
    exact (meets_of_changes hjoining hm (hchanges m)).imp hleads fun r h => .of_joins hnode h

/-- An answer joins functions. -/
theorem joins_of_answer {root : NodeId} (htree : p.arena.ChildrenFirst)
    (hrooted : p.arena.Rooted root) (hbindings : p.bindings = Bindings.ofTree p.arena root)
    (hbuiltins : p.builtins = Builtins.foreknown.1) (ha : Orderly p cut overtaken a)
    {r : a.1.Answer} {m' : Memory} (hanswer : a.1.answer p a.2 = some (r, m')) :
    a.2.Joins p cut overtaken m' :=
  (answers_of_ends (fun _ ha => meets_rule htree hrooted hbindings hbuiltins ha)
    (answer_isSome_iff_ends.1 (Option.isSome_of_eq_some hanswer)) ha hanswer).1

end Query

/-! ## Overloads of one name -/

/-- The node that defines the function of a type. -/
def TypeStore.definitionOf? (s : TypeStore) (type : TypeId) : Option NodeId :=
  (s.functionOf? type).bind (·.declaration)

/-- A type is the only one of a list, or the type of an overloaded function that combines them. -/
def TypeStore.Unites (s : TypeStore) (members : List TypeId) (type : TypeId) : Prop :=
  members = [type] ∨ 2 ≤ members.length ∧ s.shape? type = some (.overloaded members)

/-- The name `overload` is bound by an import of the module from the module that has it, and nowhere
else. -/
structure Program.ImportsOverload (p : Program) (d : Declaration) : Prop where
  /-- The declaration is an import. -/
  kind : d.kind = .imported
  /-- It imports the name from its module. -/
  imports : p.importedMember? d.node = some ("typing", "overload")
  /-- No other declaration is listed under the name, and none in another scope. -/
  only : ∀ i, p.bindings.symbol? i "overload" =
    if i = Bindings.moduleScope then some [d] else none
  /-- Where the name is written out, it is not bound. -/
  free : ∀ e, p.arena.nameOf? e = some "overload" → p.bindings.declaration? e = none

/-- The function definitions that a scope lists under a name, in the order of the text: some that
are decorated with `overload` alone, one that is not decorated, and further ones that are not. -/
structure Program.Overloads (p : Program) (overloads : List NodeId) (last : NodeId)
    (further : List NodeId) : Prop where
  /-- The name `overload` is imported. -/
  imported : ∃ d, p.ImportsOverload d
  /-- The definitions are listed together, without others. -/
  listed : ∃ scope name, p.bindings.symbol? scope name =
      some ((overloads ++ last :: further).map (Declaration.plain .function)) ∧
    ∀ n ∈ overloads ++ last :: further, p.bindings.scopeContaining p.arena n = scope ∧
      p.definitionName n = name
  /-- None is listed twice. -/
  nodup : (overloads ++ last :: further).Nodup
  /-- They are function definitions. -/
  isFunction : ∀ n ∈ overloads ++ last :: further, p.isFunction n = true
  /-- The first ones are decorated with `overload` alone. -/
  decorated : ∀ n ∈ overloads, ∃ e, p.decoratorsOf n = [e] ∧
    p.arena.nameOf? e = some "overload"
  /-- The others are not decorated. -/
  plain : ∀ n ∈ last :: further, p.decoratorsOf n = []

/-- A decorator is no title. -/
theorem Program.isTitle_of_mem_decoratorsOf {p : Program} {root n e : NodeId}
    (h : p.arena.Rooted root) (he : e ∈ p.decoratorsOf n) : p.isTitle e = false := by
  unfold decoratorsOf at he
  split at he
  · obtain ⟨decorator, -, hexpression⟩ := List.mem_filterMap.1 he
    unfold decoratorExpression? at hexpression
    split at hexpression
    · rename_i expression hform
      obtain rfl := Option.some.inj hexpression
      rw [isTitle, h.parent?_of_form? hform List.mem_cons_self, Option.bind_some, hform]
    · cases hexpression
  · cases he

/-- A decorator that is written `overload` names what is imported. -/
theorem Program.ImportsOverload.namesOverload {p : Program} {root n e : NodeId} {d : Declaration}
    (h : p.ImportsOverload d) (hrooted : p.arena.Rooted root)
    (hbindings : p.bindings = Bindings.ofTree p.arena root) (he : e ∈ p.decoratorsOf n)
    (hname : p.arena.nameOf? e = some "overload") : p.NamesOverload e d where
  form := by
    unfold Arena.nameOf? at hname
    split at hname
    · obtain rfl := Option.some.inj hname
      exact ⟨_, ‹_›⟩
    · cases hname
  isTitle := p.isTitle_of_mem_decoratorsOf hrooted he
  undeclared := h.free e hname
  found := by
    have honly := h.only
    rw [hbindings] at honly ⊢
    exact ⟨_, Bindings.lookup?_of_moduleOnly hrooted e honly⟩
  kind := h.kind
  imports := h.imports

namespace Program.Overloads

variable {p : Program} {overloads further front back : List NodeId} {last n : NodeId}

/-- The function definition before one of them is the one listed before it. -/
theorem previousFunction?_eq (h : p.Overloads overloads last further)
    (hsplit : overloads ++ last :: further = front ++ n :: back) :
    p.previousFunction? n = front.getLast? := by
  obtain ⟨i, name, hlisted, hstands⟩ := h.listed
  have hn : n ∈ overloads ++ last :: further := hsplit ▸ List.mem_append_right _ List.mem_cons_self
  obtain ⟨hscope, hname⟩ := hstands n hn
  have hnodup := h.nodup
  rw [hsplit] at hlisted hnodup
  obtain ⟨scope, hfound, hsymbols⟩ := Option.bind_eq_some_iff.1 hlisted
  have hplace : ((front ++ n :: back).map (Declaration.plain .function)).findIdx?
      (fun d => d.node == n) = some front.length := by
    have hfront : front.findIdx? (fun k => k == n) = none := by
      refine List.findIdx?_eq_none_iff.2 fun k hk => beq_eq_false_iff_ne.2 ?_
      exact (List.nodup_append.1 hnodup).2.2 k hk n List.mem_cons_self
    rw [List.findIdx?_map]
    show (front ++ n :: back).findIdx? (fun k => k == n) = _
    rw [List.findIdx?_append, hfront, List.findIdx?_cons, if_pos (beq_self_eq_true n)]
    exact congrArg some (Nat.zero_add _)
  have hbefore : ((front ++ n :: back).map (Declaration.plain .function)).take front.length =
      front.map (Declaration.plain .function) := by
    rw [← List.map_take, List.take_left' rfl]
  unfold Program.previousFunction? previousDeclaration?
  rw [hscope, hname, hfound]
  dsimp only
  rw [hsymbols, Option.getD_some, hplace]
  dsimp only
  rw [hbefore, List.getLast?_map]
  cases front.getLast? <;> rfl

/-- All of them are decorated with `overload` at most. -/
theorem names (h : p.Overloads overloads last further) {root : NodeId}
    (hrooted : p.arena.Rooted root) (hbindings : p.bindings = Bindings.ofTree p.arena root)
    (hn : n ∈ overloads ++ last :: further) :
    ∀ e ∈ p.decoratorsOf n, ∃ d, p.NamesOverload e d := by
  rcases List.mem_append.1 hn with hn | hn
  · obtain ⟨d, hd⟩ := h.imported
    obtain ⟨e, he, hname⟩ := h.decorated n hn
    intro e' he'
    obtain rfl := List.mem_singleton.1 (he ▸ he')
    exact ⟨d, hd.namesOverload hrooted hbindings he' hname⟩
  · rw [h.plain n hn]
    exact nofun

/-- So are all that come before them. -/
theorem stacked (h : p.Overloads overloads last further) {root : NodeId}
    (hrooted : p.arena.Rooted root) (hbindings : p.bindings = Bindings.ofTree p.arena root)
    (hsplit : overloads ++ last :: further = front ++ n :: back) : p.Stacked n := by
  have hmem : ∀ {front n back}, overloads ++ last :: further = front ++ n :: back →
      n ∈ overloads ++ last :: further :=
    fun hsplit => hsplit ▸ List.mem_append_right _ List.mem_cons_self
  -- On the definitions that are listed before it.
  induction front using List.reverseRecOn generalizing n back with
  | nil =>
    have hn := hmem hsplit
    exact .first (h.isFunction n hn) (h.names hrooted hbindings hn) (h.previousFunction?_eq hsplit)
  | append_singleton front n' ih =>
    have hn := hmem hsplit
    have hprevious := h.previousFunction?_eq hsplit
    rw [List.getLast?_concat] at hprevious
    rw [List.append_assoc] at hsplit
    exact .next (h.isFunction n hn) (h.names hrooted hbindings hn) hprevious (ih hsplit)

end Program.Overloads

/-- A type is the own type of a function definition. -/
def Memory.Owns (m : Memory) (n : NodeId) (type : TypeId) : Prop :=
  (m.functions.lookup n).map (·.defined) = some type ∧ m.store.definitionOf? type = some n

/-- Of the functions before one, the first ones are missing in what it is joined to only if the
decorator of one has been cut off, or one but the first has been overtaken by the next. -/
def Program.Misses (p : Program) (cut : NodeId → Prop) (overtaken : NodeId → NodeId → Prop)
    (front : List NodeId) (n : NodeId) : Prop :=
  (∃ n' ∈ front, ∃ e ∈ p.decoratorsOf n', cut e) ∨
    ∃ n' k, [n', k] <:+: (front ++ [n]).tail ∧ overtaken n' k

section Memory

variable {p : Program} {cut : NodeId → Prop} {overtaken : NodeId → NodeId → Prop} {m : Memory}
  {overloads further front back : List NodeId} {last n n' : NodeId} {t : DefinitionTypes}

/-- What is missing before stays so. -/
theorem Program.Misses.concat (h : p.Misses cut overtaken front n') :
    p.Misses cut overtaken (front ++ [n']) n := by
  rcases h with ⟨k, hk, hcut⟩ | ⟨k, k', hnext, hovertaken⟩
  · exact .inl ⟨k, List.mem_append_left _ hk, hcut⟩
  · refine .inr ⟨k, k', ?_, hovertaken⟩
    rw [List.tail_append_of_ne_nil (List.concat_ne_nil _ _)]
    exact hnext.trans (List.prefix_append _ _).isInfix

/-- A function that has been joined has its own type. -/
theorem Memory.Joined.owns (h : m.Joined p cut overtaken n t)
    (ht : m.functions.lookup n = some t) : m.Owns n t.defined := by
  obtain ⟨b, hcore, -⟩ := h.core
  obtain ⟨f, hf, hsame⟩ := Option.map_eq_some_iff.1 hcore
  refine ⟨by rw [ht]; rfl, ?_⟩
  rw [definitionOf?, hf, Option.bind_some]
  exact congrArg FunctionCore.declaration hsame

/-- A type that is united of a list that a function comes last in combines it. -/
theorem TypeStore.Unites.combined_eq {s : TypeStore} {members : List TypeId} {type defined : TypeId}
    {b : Bool} (h : s.Unites (members ++ [defined]) type) (hmark : s.mark? defined = some b) :
    s.combined type = members ++ [defined] := by
  rcases h with hsingle | ⟨-, hshape⟩
  · have hsingle : members ++ [defined] = [] ++ [type] := hsingle
    obtain ⟨rfl, heq⟩ := List.append_inj' hsingle rfl
    cases heq
    exact combined_of_mark? hmark
  · rw [combined, hshape]

/-- A function that follows overloads is joined to them, one after the other. -/
theorem Program.Overloads.unites (h : p.Overloads overloads last further) {root : NodeId}
    (hrooted : p.arena.Rooted root) (hbindings : p.bindings = Bindings.ofTree p.arena root)
    (hjoined : ∀ n, p.Stacked n → ∀ t, m.functions.lookup n = some t →
      m.Joined p cut overtaken n t)
    (hsplit : overloads ++ last :: further = front ++ n :: back) (hfront : front ⊆ overloads)
    (ht : m.functions.lookup n = some t) :
    ∃ before, List.Forall₂ m.Owns front before ∧ m.Owns n t.defined ∧
      ∃ skipped ≤ front.length, m.store.Unites ((before ++ [t.defined]).drop skipped) t.decorated ∧
        (skipped = 0 ∨ p.Misses cut overtaken front n) := by
  -- On the functions before it.
  induction front using List.reverseRecOn generalizing n back t with
  | nil =>
    have hn := hjoined n (h.stacked hrooted hbindings hsplit) t ht
    have hfirst := hn.first (h.previousFunction?_eq hsplit)
    exact ⟨[], .nil, hn.owns ht, 0, Nat.le_refl _, .inl (by rw [hfirst]; rfl), .inl rfl⟩
  | append_singleton front n' ih =>
    have hn := hjoined n (h.stacked hrooted hbindings hsplit) t ht
    have hprevious := h.previousFunction?_eq hsplit
    rw [List.getLast?_concat] at hprevious
    rw [List.append_assoc] at hsplit
    obtain ⟨t', ht', hto⟩ := hn.next n' hprevious
    obtain ⟨before, hbefore, hown', skipped, hle, hunites, hmisses⟩ :=
      ih hsplit (fun k hk => hfront (List.mem_append_left _ hk)) ht'
    have hlength := hbefore.length_eq
    refine ⟨before ++ [t'.defined], List.rel_append hbefore (.cons hown' .nil), hn.owns ht, ?_⟩
    rw [List.length_append, List.length_singleton]
    rcases hto with ⟨hmark, hplain⟩ | ⟨hmark, -, hshape | ⟨hovertaken, hshape⟩⟩
    · -- Nothing is joined to an overload that is not known to be one.
      obtain ⟨b, hcore, -, hcut⟩ := (hjoined n' (h.stacked hrooted hbindings hsplit) t' ht').core
      rw [TypeStore.mark?, hcore] at hmark
      obtain ⟨e, he, -⟩ := h.decorated n' (hfront (List.mem_append_right _ List.mem_cons_self))
      refine ⟨front.length + 1, Nat.le_refl _, .inl ?_, .inr (.inl ⟨n', ?_, e, ?_, ?_⟩)⟩
      · rw [hplain, List.drop_left' (by rw [List.length_append, hlength]; rfl)]
      · exact List.mem_append_right _ List.mem_cons_self
      · rw [he]
        exact List.mem_cons_self
      · exact hcut (Option.some.inj hmark) e (he ▸ List.mem_cons_self)
    · -- It is joined to all that the one before it is joined to.
      rw [List.drop_append_of_le_length (hlength ▸ hle)] at hunites
      rw [hunites.combined_eq hmark] at hshape
      refine ⟨skipped, Nat.le_succ_of_le hle, .inr ⟨?_, ?_⟩, hmisses.imp_right (·.concat)⟩
      · rw [List.length_drop, List.length_append, List.length_append, ← hlength]
        simp only [List.length_singleton]
        omega
      · rw [List.append_assoc, List.drop_append_of_le_length (hlength ▸ hle), hshape,
          List.append_assoc]
    · -- It has been met while the one before it had its own type only.
      refine ⟨front.length, Nat.le_succ _, .inr ⟨?_, ?_⟩, ?_⟩
      · rw [List.append_assoc, List.drop_left' hlength.symm]
        exact Nat.le_refl 2
      · rw [List.append_assoc, List.drop_left' hlength.symm]
        exact hshape
      · cases front with
        | nil => exact .inl rfl
        | cons first front =>
          refine .inr (.inr ⟨n', n, ?_, hovertaken⟩)
          rw [List.append_assoc]
          exact (List.suffix_append _ _).isInfix

/-- A function that follows others that are not decorated is not joined to anything. -/
theorem Program.Overloads.decorated_eq (h : p.Overloads overloads last further) {root : NodeId}
    (hrooted : p.arena.Rooted root) (hbindings : p.bindings = Bindings.ofTree p.arena root)
    (hjoined : ∀ n, p.Stacked n → ∀ t, m.functions.lookup n = some t →
      m.Joined p cut overtaken n t)
    (hn : n ∈ further) (ht : m.functions.lookup n = some t) :
    t.decorated = t.defined ∧ m.Owns n t.defined := by
  obtain ⟨front, back, rfl⟩ := List.append_of_mem hn
  have hsplit : overloads ++ last :: (front ++ n :: back) =
      (overloads ++ last :: front) ++ n :: back := by
    rw [List.append_assoc, List.cons_append]
  have hkept := hjoined n (h.stacked hrooted hbindings hsplit) t ht
  refine ⟨?_, hkept.owns ht⟩
  obtain ⟨n', hn'⟩ : ∃ n', (last :: front).getLast? = some n' :=
    ⟨_, List.getLast?_eq_some_getLast (List.cons_ne_nil _ _)⟩
  have hprevious : p.previousFunction? n = some n' := by
    rw [h.previousFunction?_eq hsplit, List.getLast?_append, hn']
    rfl
  obtain ⟨t', ht', hto⟩ := hkept.next n' hprevious
  rcases hto with ⟨-, hplain⟩ | ⟨hmark, -⟩
  · exact hplain
  · -- The one before it is no overload: it is not decorated.
    have hplain := h.plain n' (List.mem_append_left (n :: back) (List.mem_of_getLast? hn'))
    obtain ⟨b, hcore, hdecorated, -⟩ :=
      (hjoined n' ((h.stacked hrooted hbindings hsplit).previous hprevious) t' ht').core
    rw [TypeStore.mark?, hcore] at hmark
    exact absurd hplain (hdecorated (Option.some.inj hmark))

end Memory

/-! ## What a checker has been asked -/

namespace Checker

variable {name text : String} {c c' : Checker} {asked : List Query.State}
  {cut : NodeId → Prop} {overtaken : NodeId → NodeId → Prop}

/-- A checker that has not been asked has an orderly memory. -/
theorem orderly_checker (file : SourceFile) (p : Program) : file.checker.memory.Orderly p cut := by
  obtain ⟨b, s, hcreate, hstart⟩ := checker_eq file
  have hstays : Builtins.foreknown.2.Stays s := by
    rw [Builtins.foreknown, hcreate]
    exact .refl _
  rw [hstart]
  exact ⟨⟨hstays, fun _ _ _ _ ht => absurd ht.symm (Option.some_ne_none _),
    fun _ _ _ _ ht => absurd ht.symm (Option.some_ne_none _)⟩,
    fun _ _ _ ht => absurd ht.symm (Option.some_ne_none _)⟩

/-- Whatever a checker has been asked, functions have been joined. -/
theorem Interviewed.joins (h : Interviewed (SourceFile.ofText name text) asked c)
    (hcut : ∀ a ∈ asked, ∀ e, Query.CutsOff c.program e a → cut e)
    (hovertaken : ∀ a ∈ asked, ∀ n k, Query.Overtakes c.program n k a → overtaken n k) :
    (SourceFile.ofText name text).checker.memory.Joins c.program cut overtaken c.memory := by
  induction h with
  | start => exact .of_functions (orderly_checker _ _) (.refl _) rfl (orderly_checker _ _).toReads
  | @answered asked c c' q a h hknown hq ha ih =>
    obtain ⟨hanswer, hprogram⟩ := ask?_eq_some ha
    rw [hprogram] at hcut hovertaken ⊢
    have hreached := h.traced.reached
    obtain ⟨hrooted, hbindings⟩ := hreached.rooted
    have hbefore := ih (fun a ha => hcut a (List.mem_cons_of_mem _ ha))
      fun a ha => hovertaken a (List.mem_cons_of_mem _ ha)
    have horderly : Query.Orderly c.program cut overtaken (q, c.memory) :=
      { toOrderly := hbefore.toOrderly
        sound := ⟨hreached.sound.memory, hq⟩
        known := hknown
        cutsOff := hcut _ List.mem_cons_self
        overtakes := hovertaken _ List.mem_cons_self }
    exact hbefore.trans (Query.joins_of_answer hreached.sound.tree hrooted hbindings
      (by rw [hreached.program_eq]) horderly hanswer)

/-- A type is the own type of a function definition. -/
def Owns (c : Checker) (n : NodeId) (type : TypeId) : Prop :=
  (∃ types, c.functionOf? n = some (some types, c) ∧ types.defined = type) ∧
    c.store.definitionOf? type = some n

/-- What is kept of a function definition is answered. -/
theorem owns_of_memory {n : NodeId} {type : TypeId} (h : c.memory.Owns n type) :
    c.Owns n type := by
  obtain ⟨hkept, hdefinition⟩ := h
  obtain ⟨types, htypes, rfl⟩ := Option.map_eq_some_iff.1 hkept
  refine ⟨⟨types, ?_, rfl⟩, hdefinition⟩
  rw [functionOf?, ask?, Query.answer_function_of_kept htypes]
  rfl

/-- Whatever a checker for a file has been asked before about its nodes and declarations: an
overload, or the function after overloads, is joined to those before it in the order of the text,
and none is missing, unless the first ones are, because the evaluation of the decorator of one of
them has been cut off, or because the evaluation of one of them but the first has led to the next
one while it had its own type only. Functions after that are joined to nothing. -/
theorem Interviewed.unites_overloads (h : Interviewed (SourceFile.ofText name text) asked c)
    {overloads further : List NodeId} {last n : NodeId} {answer : Option DefinitionTypes}
    (hf : c.program.Overloads overloads last further)
    (hn : n ∈ overloads ++ last :: further) (ha : c.functionOf? n = some (answer, c')) :
    ∃ types, answer = some types ∧ c'.Owns n types.defined ∧
      (∀ front back, overloads ++ [last] = front ++ n :: back →
        ∃ before, List.Forall₂ c'.Owns front before ∧ ∃ skipped ≤ front.length,
          c'.store.Unites ((before ++ [types.defined]).drop skipped) types.decorated ∧
          (skipped = 0 ∨ c.program.Misses
            (fun e => ∃ a ∈ (.function n, c.memory) :: asked, Query.CutsOff c.program e a)
            (fun n' k => ∃ a ∈ (.function n, c.memory) :: asked, Query.Overtakes c.program n' k a)
            front n)) ∧
      (n ∈ further → types.decorated = types.defined) := by
  have hafter := h.answered (q := .function n) trivial trivial ha
  obtain ⟨hanswer, hprogram⟩ := ask?_eq_some ha
  have hjoins := hafter.joins
    (fun a ha e he => (⟨a, ha, hprogram ▸ he⟩ :
      ∃ a ∈ (Query.function n, c.memory) :: asked, Query.CutsOff c.program e a))
    (fun a ha k k' hk => (⟨a, ha, hprogram ▸ hk⟩ :
      ∃ a ∈ (Query.function n, c.memory) :: asked, Query.Overtakes c.program k k' a))
  rw [hprogram] at hjoins
  have hjoined := fun k hk => hjoins.joined k hk
    (Option.not_isSome_iff_eq_none.1 (Bool.eq_false_iff.1
      (isKept_checker (SourceFile.ofText name text) (.function k))))
  obtain ⟨hrooted, hbindings⟩ := h.traced.reached.rooted
  obtain ⟨front, back, hsplit⟩ := List.append_of_mem hn
  obtain ⟨types, rfl, hkept⟩ :=
    Evaluation.lookup_of_answer_function (hf.isFunction n hn) hanswer
  have hown := (hjoined n (hf.stacked hrooted hbindings hsplit) types hkept).owns hkept
  refine ⟨types, rfl, owns_of_memory hown, fun front back hsplit => ?_, fun hn => ?_⟩
  · have hall : overloads ++ last :: further = front ++ n :: (back ++ further) := by
      rw [← List.singleton_append, ← List.append_assoc, hsplit, List.append_assoc]
      rfl
    have hfront : overloads = front ++ (n :: back).dropLast := by
      rw [← List.dropLast_append_of_ne_nil (List.cons_ne_nil n back), ← hsplit,
        List.dropLast_concat]
    obtain ⟨before, hbefore, -, hrest⟩ := hf.unites hrooted hbindings hjoined hall
      (hfront ▸ List.subset_append_left _ _) hkept
    exact ⟨before, hbefore.imp fun _ _ => owns_of_memory, hrest⟩
  · exact (hf.decorated_eq hrooted hbindings hjoined hn hkept).1

/-- A module with two overloads and the function after them. The signature of the second overload
goes through a list of what has the name of the functions. -/
def overtakingFile : SourceFile :=
  SourceFile.ofText "a.py" ("from typing import overload\n@overload\ndef f(): ...\n" ++
    "@overload\ndef f(x=[f for a in b]): ...\ndef f(): ...\n")

/-- Its definitions are overloads and the function after them. -/
theorem overloads_overtakingFile : overtakingFile.checker.program.Overloads [12, 27] 32 [] := by
  obtain ⟨hscopes, hnodes, hsymbols, hnames⟩ :
      overtakingFile.checker.program.bindings.scopes.size = 5 ∧
      overtakingFile.checker.program.arena.size = 34 ∧
      (∀ i < 5, overtakingFile.checker.program.bindings.symbol? i "overload" =
        if i = Bindings.moduleScope then some [.plain .imported 3] else none) ∧
      ∀ e < 34, overtakingFile.checker.program.arena.nameOf? e = some "overload" →
        overtakingFile.checker.program.bindings.declaration? e = none := by decide +kernel
  obtain ⟨himports, hlisted, hdefinitions⟩ :
      overtakingFile.checker.program.importedMember? 3 = some ("typing", "overload") ∧
      overtakingFile.checker.program.bindings.symbol? 0 "f" =
        some ([12, 27, 32].map (.plain .function)) ∧
      ∀ n ∈ [12, 27, 32], (overtakingFile.checker.program.bindings.scopeContaining
          overtakingFile.checker.program.arena n = 0 ∧
        overtakingFile.checker.program.definitionName n = "f") ∧
        overtakingFile.checker.program.isFunction n = true := by decide +kernel
  obtain ⟨hfirst, hsecond, hlast⟩ : (overtakingFile.checker.program.decoratorsOf 12 = [6] ∧
        overtakingFile.checker.program.arena.nameOf? 6 = some "overload") ∧
      (overtakingFile.checker.program.decoratorsOf 27 = [13] ∧
        overtakingFile.checker.program.arena.nameOf? 13 = some "overload") ∧
      overtakingFile.checker.program.decoratorsOf 32 = [] := by decide +kernel
  generalize overtakingFile.checker.program = p at *
  refine ⟨⟨.plain .imported 3, rfl, himports, fun i => ?_, fun e he => ?_⟩,
    ⟨0, "f", hlisted, fun n hn => (hdefinitions n hn).1⟩, by decide,
    fun n hn => (hdefinitions n hn).2, ?_, List.forall_mem_singleton.2 hlast⟩
  · by_cases hi : i < 5
    · exact hsymbols i hi
    · -- There is no scope further on.
      have hnone : p.bindings.scope? i = none :=
        Array.getElem?_eq_none (hscopes ▸ Nat.le_of_not_lt hi)
      rw [Bindings.symbol?, hnone, if_neg]
      · rfl
      · rintro rfl
        exact hi (by decide)
  · refine hnames e ?_ he
    unfold Arena.nameOf? at he
    split at he
    · exact hnodes ▸ Arena.lt_size_of_form? ‹_›
    · cases he
  · exact List.forall_mem_cons.2 ⟨⟨6, hfirst⟩, List.forall_mem_singleton.2 ⟨13, hsecond⟩⟩

/-- After the second overload has been asked for, whose signature leads to the function after it,
that function is joined to the own type of the second overload alone: the first one is missing. -/
theorem Interviewed.unites_overloads_overtaken :
    ∃ asked c types c' first second, Interviewed overtakingFile asked c ∧
      c.functionOf? 32 = some (some types, c') ∧
      c'.Owns 12 first ∧ c'.Owns 27 second ∧ c'.Owns 32 types.defined ∧
      c'.store.shape? types.decorated = some (.overloaded [second, types.defined]) ∧
      c.program.Misses
        (fun e => ∃ a ∈ (.function 32, c.memory) :: asked, Query.CutsOff c.program e a)
        (fun n k => ∃ a ∈ (.function 32, c.memory) :: asked, Query.Overtakes c.program n k a)
        [12, 27] 32 := by
  have hrun : (overtakingFile.checker.askWithin? 6 (.function 27)).bind (fun r =>
      (r.2.askWithin? 1 (.function 32)).bind fun r => r.1.bind fun types =>
        (r.2.store.shape? types.decorated).map fun shape => (shape, types)) =
      some (.overloaded [⟨73⟩, ⟨74⟩], ⟨⟨74⟩, ⟨75⟩⟩) := by decide +kernel
  obtain ⟨⟨answer, c⟩, hsecond, hrun⟩ := Option.bind_eq_some_iff.1 hrun
  obtain ⟨⟨types?, c'⟩, hthird, hrun⟩ := Option.bind_eq_some_iff.1 hrun
  obtain ⟨types, rfl, hrun⟩ := Option.bind_eq_some_iff.1 hrun
  obtain ⟨shape, hshape, heq⟩ := Option.map_eq_some_iff.1 hrun
  obtain ⟨rfl, htypes⟩ := Prod.mk.inj heq
  have hasked : overtakingFile.checker.functionOf? 27 = some (answer, c) :=
    ask?_eq_some_iff.2 ⟨6, hsecond⟩
  have hlast : c.functionOf? 32 = some (some types, c') := ask?_eq_some_iff.2 ⟨1, hthird⟩
  have hinterviewed :
      Interviewed overtakingFile [(.function 27, overtakingFile.checker.memory)] c :=
    .answered (q := .function 27) .start trivial trivial hasked
  have hoverloads : c.program.Overloads [12, 27] 32 [] := by
    rw [(ask?_eq_some hasked).2]
    exact overloads_overtakingFile
  obtain ⟨types', heq, hown, hjoined, -⟩ :=
    Interviewed.unites_overloads hinterviewed hoverloads (by decide) hlast
  cases heq
  obtain ⟨before, hbefore, skipped, hle, hunites, hmisses⟩ := hjoined [12, 27] [] rfl
  obtain _ | ⟨hfirst, _ | ⟨hsecond, _ | _⟩⟩ := hbefore
  rename_i first second
  -- Two functions are combined, so that the first of the three is the one that is missing.
  have hskipped : skipped = 0 ∨ skipped = 1 ∨ skipped = 2 := by
    have hle : skipped ≤ 2 := hle
    omega
  rcases hskipped with rfl | rfl | rfl
  · rcases hunites with hsingle | ⟨-, hmembers⟩
    · cases hsingle
    · rw [hshape] at hmembers
      cases hmembers
  · rcases hunites with hsingle | ⟨-, hmembers⟩
    · cases hsingle
    · exact ⟨_, c, types, c', first, second, hinterviewed, hlast, hfirst, hsecond, hown, hmembers,
        hmisses.resolve_left (by decide)⟩
  · rcases hunites with hsingle | ⟨htwo, -⟩
    · rw [htypes] at hsingle
      cases hsingle
    · exact absurd htwo (Nat.not_succ_le_self 1)

end Checker

end TypeProbe
