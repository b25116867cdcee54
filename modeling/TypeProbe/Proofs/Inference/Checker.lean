import TypeProbe.Project.Basic
import TypeProbe.Proofs.Inference.Builtins
import TypeProbe.Proofs.Inference.Termination
import TypeProbe.Proofs.Tree.Shape

/-!
# Which checkers answer

A checker for a file is sound from the start, and it stays so with every answer
(`Checker.Reached.sound`). Hence it answers the questions for the types of nodes, classes and
functions, unless these lead to a call that is passed on for ever (`Checker.answers_iff`). Between
questions it is idle: nothing is being worked out (`Checker.Reached.idle`).
-/

namespace TypeProbe

/-- A memory in which nothing is being worked out. -/
structure Memory.Idle (m : Memory) : Prop where
  /-- No type of a node is. -/
  nodeGuard : m.nodeGuard = Guard.ofLimit Guard.evaluationLimit
  /-- No type of a declaration is. -/
  declarationGuard : m.declarationGuard = Guard.ofLimit Guard.evaluationLimit
  /-- No type that a function returns is. -/
  returnGuard : m.returnGuard = Guard.ofLimit Guard.evaluationLimit

/-- A memory stays idle when it grows. -/
theorem Memory.Idle.grows {m m' : Memory} (h : m.Idle) (hgrows : m.Grows m') : m'.Idle where
  nodeGuard := hgrows.nodeGuard.trans h.nodeGuard
  declarationGuard := hgrows.declarationGuard.trans h.declarationGuard
  returnGuard := hgrows.returnGuard.trans h.returnGuard

namespace Checker

/-- A checker with a sound memory, for a tree whose nodes come after their children. -/
structure Sound (c : Checker) : Prop where
  /-- The memory is sound. -/
  memory : c.memory.Sound c.program.builtins
  /-- The nodes come after their children. -/
  tree : c.program.arena.ChildrenFirst

/-- The checkers for a file, after any questions about what was there have been answered. -/
inductive Reached (file : SourceFile) : Checker → Prop
  | start : Reached file file.checker
  | answered {c c' : Checker} {q : Query} {a : q.Answer} (h : Reached file c) (hq : q.In c.store)
    (ha : c.ask? q = some (a, c')) : Reached file c'

/-- A question leads to a call that is passed on for ever. -/
def MeetsEndlessCall (c : Checker) (q : Query) : Prop :=
  ∃ callee arguments m, Query.Reaches c.program (q, c.memory) (.call callee arguments, m) ∧
    Query.Endless c.program callee arguments m

/-- A memory that holds no answers yet is sound if its store is. -/
theorem sound_ofStore {b : Builtins} {s : TypeStore} (hs : s.Sound) (hb : b.In s) :
    (Memory.ofStore s).Sound b where
  store := hs
  builtins := hb
  nodeTypes := nofun
  declarationTypes := nofun
  classes := nofun
  functions := nofun
  returnTypes := nofun
  scopedTypeVars := nofun
  getters := nofun

/-- A checker that has not been asked knows what is known beforehand, and has kept no answers. -/
theorem checker_eq (file : SourceFile) : ∃ b s, Builtins.create.run TypeStore.initial = (b, s) ∧
    file.checker =
      ⟨⟨file.parsed.arena, file.bindings, file.moduleName, b⟩, Memory.ofStore s⟩ := by
  rcases hcreate : Builtins.create.run TypeStore.initial with ⟨b, s⟩
  refine ⟨b, s, rfl, ?_⟩
  rw [SourceFile.checker, ofModule, hcreate]

/-- A checker for a file is sound before it is asked. -/
theorem sound_checker (name text : String) : (SourceFile.ofText name text).checker.Sound := by
  obtain ⟨b, s, hcreate, hstart⟩ := checker_eq (SourceFile.ofText name text)
  obtain ⟨hs, hb⟩ := Builtins.works_create TypeStore.sound_initial hcreate
  rw [hstart]
  exact ⟨sound_ofStore hs hb, ParsedText.childrenFirst_ofText text⟩

/-- A checker stays sound with an answer. -/
theorem Sound.answered {c c' : Checker} {q : Query} {a : q.Answer} (h : c.Sound)
    (hq : q.In c.store) (ha : c.ask? q = some (a, c')) : c'.Sound := by
  obtain ⟨⟨a', m'⟩, hanswer, heq⟩ := Option.map_eq_some_iff.1 ha
  cases heq
  exact ⟨(Query.fits_of_answer h.tree ⟨h.memory, hq⟩ hanswer).1, h.tree⟩

/-- The checkers for a file are sound. -/
theorem Reached.sound {name text : String} {c : Checker}
    (h : Reached (SourceFile.ofText name text) c) : c.Sound := by
  induction h with
  | start => exact sound_checker name text
  | answered _ hq ha ih => exact ih.answered hq ha

/-- A checker is idle between questions. -/
theorem Reached.idle {name text : String} {c : Checker}
    (h : Reached (SourceFile.ofText name text) c) : c.memory.Idle := by
  induction h with
  | start =>
    obtain ⟨b, s, -, hstart⟩ := checker_eq (SourceFile.ofText name text)
    rw [hstart]
    exact ⟨rfl, rfl, rfl⟩
  | answered hc hq ha ih =>
    obtain ⟨⟨a', m'⟩, hanswer, heq⟩ := Option.map_eq_some_iff.1 ha
    cases heq
    exact ih.grows (Query.fits_of_answer hc.sound.tree ⟨hc.sound.memory, hq⟩ hanswer).2.1

/-- A checker, after any further questions about what is there have been answered. -/
inductive Later (c : Checker) : Checker → Prop
  | refl : Later c c
  | answered {c' c'' : Checker} {q : Query} {a : q.Answer} (h : Later c c') (hq : q.In c'.store)
    (ha : c'.ask? q = some (a, c'')) : Later c c''

/-- A checker for a file is one later on. -/
theorem Reached.later {file : SourceFile} {c c' : Checker} (h : Reached file c)
    (hlater : Later c c') : Reached file c' := by
  induction hlater with
  | refl => exact h
  | answered _ hq ha ih => exact ih.answered hq ha

/-- A question about what is there is answered unless it leads to a call that is passed on for
ever. -/
theorem Sound.isSome_ask?_iff {c : Checker} (h : c.Sound) {q : Query} (hq : q.In c.store) :
    (c.ask? q).isSome ↔ ¬c.MeetsEndlessCall q := by
  have hnone := Query.answer_eq_none_iff h.tree (q := q) (m := c.memory) ⟨h.memory, hq⟩
  rw [ask?, Option.isSome_map, Option.isSome_iff_ne_none, Ne, hnone]
  rfl

/-- A checker answers as it does when it asks deep enough. -/
theorem ask?_eq_some_iff {c : Checker} {q : Query} {r : q.Answer × Checker} :
    c.ask? q = some r ↔ ∃ depth, c.askWithin? depth q = some r := by
  simp only [ask?, askWithin?, Option.map_eq_some_iff, Query.answer_eq_some_iff]
  constructor
  · rintro ⟨a, ⟨depth, ha⟩, rfl⟩
    exact ⟨depth, a, ha, rfl⟩
  · rintro ⟨depth, a, ha, rfl⟩
    exact ⟨a, ⟨depth, ha⟩, rfl⟩

/-- A checker that answers when it asks deep enough answers. -/
theorem exists_answer {c : Checker} {q : Query} (depth : Nat)
    (h : (c.askWithin? depth q).isSome = true) :
    ∃ a c', c.ask? q = some (a, c') := by
  obtain ⟨⟨a, c'⟩, ha⟩ := Option.isSome_iff_exists.1 h
  exact ⟨a, c', ask?_eq_some_iff.2 ⟨depth, ha⟩⟩

/-- A checker that answers one question after another when it asks deep enough does so. -/
theorem exists_answers {c : Checker} {q r : Query} (depth : Nat)
    (h : ((c.askWithin? depth q).bind fun first => first.2.askWithin? depth r).isSome = true) :
    ∃ a c₁ b c₂, c.ask? q = some (a, c₁) ∧ c₁.ask? r = some (b, c₂) := by
  obtain ⟨second, hsecond⟩ := Option.isSome_iff_exists.1 h
  obtain ⟨⟨a, c₁⟩, ha, hsecond⟩ := Option.bind_eq_some_iff.1 hsecond
  obtain ⟨b, c₂, hb⟩ := exists_answer depth (Option.isSome_of_eq_some hsecond)
  exact ⟨a, c₁, b, c₂, ask?_eq_some_iff.2 ⟨depth, ha⟩, hb⟩

/-- Whatever a checker for a file has been asked before, it answers which types a node, a class and
a function have, unless this leads to a call that is passed on for ever. -/
theorem answers_iff {name text : String} {c : Checker}
    (h : Reached (SourceFile.ofText name text) c) (n : NodeId) :
    ((c.typeOf? n).isSome ↔ ¬c.MeetsEndlessCall (.node n)) ∧
    ((c.classOf? n).isSome ↔ ¬c.MeetsEndlessCall (.classDef n)) ∧
    ((c.functionOf? n).isSome ↔ ¬c.MeetsEndlessCall (.function n)) :=
  ⟨h.sound.isSome_ask?_iff trivial, h.sound.isSome_ask?_iff trivial,
    h.sound.isSome_ask?_iff trivial⟩

/-- A checker that has not been asked, for a class whose values are called by a value of it: of such
a call it does not answer which type it has, and that the call is no definition it does. -/
theorem answers_iff_calledByItself :
    let c := (SourceFile.ofText "a.py" "class A:\n    __call__ = A()\nx = A()()\n").checker
    ((c.typeOf? 11).isSome ↔ ¬c.MeetsEndlessCall (.node 11)) ∧
    ((c.classOf? 11).isSome ↔ ¬c.MeetsEndlessCall (.classDef 11)) ∧
    ((c.functionOf? 11).isSome ↔ ¬c.MeetsEndlessCall (.function 11)) ∧
    (c.typeOf? 11 = none ∧ c.MeetsEndlessCall (.node 11)) ∧
    ((c.classOf? 11).isSome ∧ ¬c.MeetsEndlessCall (.classDef 11)) ∧
    ((c.functionOf? 11).isSome ∧ ¬c.MeetsEndlessCall (.function 11)) := by
  intro c
  obtain ⟨hnode, hclass, hfunction⟩ := answers_iff (c := c) .start 11
  -- The callee is evaluated first; what is called then is the member for calls of its own class.
  have hrun : (((Query.node 11).rule c.program c.memory).asked?
      (Query.answerWithin c.program 9) 1).map (fun r => (r.1, r.2.store.get? ⟨74⟩,
        r.2.store.member? ⟨38⟩ "__call__", r.2.getters.lookup ⟨74⟩)) =
      some (.call ⟨74⟩ [], some ⟨⟨2⟩, .nominal ⟨38⟩ none none⟩, some ⟨74⟩, none) := by
    decide +kernel
  obtain ⟨hclassRun, hfunctionRun⟩ : (c.askWithin? 1 (.classDef 11)).isSome = true ∧
      (c.askWithin? 1 (.function 11)).isSome = true := by decide +kernel
  clear_value c
  obtain ⟨⟨q, m⟩, hasked, heq⟩ := Option.map_eq_some_iff.1 hrun
  obtain ⟨rfl, heq⟩ := Prod.mk.inj heq
  obtain ⟨hget, heq⟩ := Prod.mk.inj heq
  obtain ⟨hmember, hgetter⟩ := Prod.mk.inj heq
  have hendless : c.MeetsEndlessCall (.node 11) :=
    ⟨⟨74⟩, [], m, .single (Query.leads_of_asked? (a := (.node 11, c.memory)) hasked),
      Query.endless_of_member?_self [] hget rfl rfl hmember hgetter⟩
  have hclass' : (c.classOf? 11).isSome := by
    obtain ⟨a, c', ha⟩ := exists_answer 1 hclassRun
    exact Option.isSome_of_eq_some ha
  have hfunction' : (c.functionOf? 11).isSome := by
    obtain ⟨a, c', ha⟩ := exists_answer 1 hfunctionRun
    exact Option.isSome_of_eq_some ha
  refine ⟨hnode, hclass, hfunction, ⟨?_, hendless⟩, ⟨hclass', hclass.1 hclass'⟩,
    ⟨hfunction', hfunction.1 hfunction'⟩⟩
  exact Option.not_isSome_iff_eq_none.1 fun hsome => hnode.1 hsome hendless

end Checker

end TypeProbe
