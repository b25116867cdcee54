import TypeProbe.Proofs.Inference.Unpacking
import TypeProbe.Proofs.Scope.Imports

/-!
# Which nodes have types

Expressions have types, and other nodes have none. The exceptions are names that only label the
construct around them: the keyword of an argument (`Arena.IsKeyword`), and the names of an import
that declares nothing (`Arena.NamesNothing`). `Checker.typeOf?_eq_none_iff` says that there are no
others: the table of the kinds that are expressions and the rules by which types are worked out
agree on every node of a tree. Nothing is kept of a node without a value, so this does not depend on
what has been asked before.
-/

namespace TypeProbe

namespace Arena

/-- A name is the keyword of an argument. -/
def IsKeyword (a : Arena) (n : NodeId) : Prop :=
  a.kind? n = some .name ∧ ∃ parent category value, a.parent? n = some parent ∧
    a.form? parent = some (.argument category (some n) value)

/-- A name is part of the name of a module where the module is not imported by this name, or belongs
to an import that binds no name. -/
def NamesNothing (a : Arena) (n : NodeId) : Prop :=
  a.kind? n = some .name ∧ ∃ parent, a.parent? n = some parent ∧
    ((a.kind? parent = some .moduleName ∧ ¬ ∃ around, a.parent? parent = some around ∧
        a.kind? around = some .importAs ∧ a.BindsName around) ∨
      ((a.kind? parent = some .importAs ∨ a.kind? parent = some .importFromAs) ∧
        ¬ a.BindsName parent))

/-- The node of which a node of a tree is a part is one of the tree. -/
theorem Rooted.reaches_parent? {a : Arena} {root n parent : NodeId} (h : a.Rooted root)
    (hreach : a.Reaches root n) (hparent : a.parent? n = some parent) : a.Reaches root parent := by
  rcases Relation.ReflTransGen.cases_tail hreach with rfl | ⟨around, haround, hchild⟩
  · rw [h.free] at hparent
    cases hparent
  · obtain rfl := h.parent_unique hchild ((h.linked n parent).1 hparent)
    exact haround

end Arena

namespace Program

variable {p : Program} {root n : NodeId}

/-- Whether an import declares something can be told from the names in it. -/
theorem isNone_declaration?_iff (h : p.arena.Rooted root)
    (hbindings : p.bindings = Bindings.ofTree p.arena root) (hreach : p.arena.Reaches root n)
    {kind : NodeKind} (hkind : p.arena.kind? n = some kind) (himport : kind.isImport = true) :
    (p.bindings.declaration? n).isNone = true ↔ ¬ p.arena.BindsName n := by
  rw [← Bindings.isSome_declaration?_iff h hreach hkind himport, ← hbindings]
  simp

/-- A name labels the construct around it if it is the keyword of an argument or names nothing that
is imported. -/
theorem isLabel_iff (h : p.arena.Rooted root)
    (hbindings : p.bindings = Bindings.ofTree p.arena root) (hreach : p.arena.Reaches root n)
    (hname : p.arena.kind? n = some .name) :
    p.isLabel n = true ↔ p.arena.IsKeyword n ∨ p.arena.NamesNothing n := by
  unfold isLabel Arena.IsKeyword Arena.NamesNothing
  cases hparent : p.arena.parent? n with
  | none => simp
  | some parent =>
    have hreaches := h.reaches_parent? hreach hparent
    simp only [hname, Option.some.injEq, exists_eq_left', true_and]
    cases hform : p.arena.form? parent with
    | none =>
      have hkind : p.arena.kind? parent = none := by
        rw [Arena.kind?_eq, hform]
        rfl
      simp [hform, hkind]
    | some form =>
      have hkind := Arena.kind?_of_form? hform
      have himported : form.kind.isImport = true →
          ((p.bindings.declaration? parent).isNone = true ↔ ¬ p.arena.BindsName parent) :=
        isNone_declaration?_iff h hbindings hreaches hkind
      -- The module of an import is a label by what is around it, other names by what they are in.
      cases form with
      | moduleName dots parts missing =>
        cases haround : p.arena.parent? parent with
        | none => simp [hform, hkind, Form.kind]
        | some around =>
          have hsearch := h.reaches_parent? hreaches haround
          by_cases himport : p.arena.kind? around = some .importAs
          · have hdeclares := isNone_declaration?_iff h hbindings hsearch himport rfl
            simp [hform, hkind, Form.kind, himport, ← hdeclares]
          · simp [hform, hkind, Form.kind, himport]
      | importAs source newName => simpa [hform, hkind, Form.kind] using himported rfl
      | importFromAs title newName => simpa [hform, hkind, Form.kind] using himported rfl
      | _ => simp [hform, hkind, Form.kind]

/-- A node of a tree has a value unless it is no expression, the keyword of an argument, or names
nothing that is imported. -/
theorem hasValue_eq_false_iff (h : p.arena.Rooted root)
    (hbindings : p.bindings = Bindings.ofTree p.arena root) (hreach : p.arena.Reaches root n) :
    p.hasValue n = false ↔
      p.arena.isExpression n = false ∨ p.arena.IsKeyword n ∨ p.arena.NamesNothing n := by
  have hother : p.arena.kind? n ≠ some .name →
      ¬ (p.arena.IsKeyword n ∨ p.arena.NamesNothing n) :=
    fun hne hlabel => hlabel.elim (fun h => hne h.1) fun h => hne h.1
  unfold hasValue Arena.isExpression
  cases hform : p.arena.form? n with
  | none =>
    rw [Arena.kind?_eq, hform]
    simp
  | some form =>
    have hkind := Arena.kind?_of_form? hform
    rw [hkind] at hother ⊢
    cases form with
    | name token value =>
      have hlabel := isLabel_iff h hbindings hreach hkind
      simpa [Form.kind, NodeKind.isExpression] using hlabel
    | _ => exact (or_iff_left (hother (by simp [Form.kind]))).symm

end Program

namespace Checker

variable {name text : String} {c c' : Checker} {n : NodeId} {answer : Option TypeId}

/-- What is kept of the types of nodes is kept of nodes that have a value. -/
theorem Reached.lookup_nodeTypes {file : SourceFile} (h : Reached file c)
    (hvalue : c.program.hasValue n = false) : c.memory.nodeTypes.lookup n = none := by
  induction h with
  | start =>
    obtain ⟨b, s, -, hstart⟩ := checker_eq file
    rw [hstart]
    rfl
  | answered _ _ ha ih =>
    obtain ⟨hanswer, hprogram⟩ := ask?_eq_some ha
    rw [hprogram] at hvalue
    exact ((Query.remembers_of_answer hanswer).nodeTypes.lookup_of_none hvalue).trans (ih hvalue)

/-- Whatever a checker for a file has been asked before, it answers of a node that it has no type
exactly if the node is no expression, the keyword of an argument, or a name that names nothing that
is imported. -/
theorem typeOf?_eq_none_iff (h : Reached (SourceFile.ofText name text) c)
    (hreach : (ParsedText.ofText text).arena.Reaches (ParsedText.ofText text).root n)
    (ha : c.typeOf? n = some (answer, c')) :
    answer = none ↔ (ParsedText.ofText text).arena.isExpression n = false ∨
      (ParsedText.ofText text).arena.IsKeyword n ∨
        (ParsedText.ofText text).arena.NamesNothing n := by
  obtain ⟨hrooted, hbindings⟩ := h.rooted
  have harena : c.program.arena = (ParsedText.ofText text).arena := by rw [h.program_eq]; rfl
  rw [← harena] at hreach ⊢
  rw [← Program.hasValue_eq_false_iff hrooted hbindings hreach]
  obtain ⟨hanswer, -⟩ := ask?_eq_some ha
  -- The rule for a node with a value gives one; of a node without a value none has been kept.
  constructor
  · rintro rfl
    exact Query.eq_false_of_isSome (given_of_ask? ha)
  · intro hvalue
    rw [Query.answer_node_of_not_hasValue hvalue h.idle (h.lookup_nodeTypes hvalue)] at hanswer
    exact (congrArg Prod.fst (Option.some.inj hanswer)).symm

/-- The name of a module that is imported under a missing name has no type. -/
theorem typeOf?_eq_none_iff_missingName :
    let c := (SourceFile.ofText "a.py" "import a as\n").checker
    (ParsedText.ofText "import a as\n").arena.Reaches (ParsedText.ofText "import a as\n").root 0 ∧
      ∃ answer c', c.typeOf? 0 = some (answer, c') ∧ answer = none := by
  intro c
  obtain ⟨hroot, hline, himport, hitem, hmodule⟩ :
      (ParsedText.ofText "import a as\n").arena.children (ParsedText.ofText "import a as\n").root =
        [5] ∧
      (ParsedText.ofText "import a as\n").arena.children 5 = [4] ∧
      (ParsedText.ofText "import a as\n").arena.children 4 = [3] ∧
      (ParsedText.ofText "import a as\n").arena.children 3 = [1, 2] ∧
      (ParsedText.ofText "import a as\n").arena.children 1 = [0] := by decide +kernel
  have hreach : (ParsedText.ofText "import a as\n").arena.Reaches
      (ParsedText.ofText "import a as\n").root 0 := by
    refine .head (b := 5) ?_ (.head (b := 4) ?_ (.head (b := 3) ?_
      (.head (b := 1) ?_ (.single ?_))))
    · simp [hroot]
    · simp [hline]
    · simp [himport]
    · simp [hitem]
    · simp [hmodule]
  obtain ⟨hname, hparent, hkind, haround, hbound⟩ :
      (ParsedText.ofText "import a as\n").arena.kind? 0 = some .name ∧
      (ParsedText.ofText "import a as\n").arena.parent? 0 = some 1 ∧
      (ParsedText.ofText "import a as\n").arena.kind? 1 = some .moduleName ∧
      (ParsedText.ofText "import a as\n").arena.parent? 1 = some 3 ∧
      (ParsedText.ofText "import a as\n").arena.boundName? 3 = some "" := by decide +kernel
  have hnothing : (ParsedText.ofText "import a as\n").arena.NamesNothing 0 := by
    refine ⟨hname, 1, hparent, .inl ⟨hkind, ?_⟩⟩
    rintro ⟨around, hsome, -, x, hx, hne⟩
    obtain rfl := Option.some.inj (haround.symm.trans hsome)
    exact hne (Option.some.inj (hbound.symm.trans hx)).symm
  obtain ⟨answer, c', ha⟩ := exists_answer (c := c) (q := .node 0) 9 (by decide +kernel)
  exact ⟨hreach, answer, c', ha, (typeOf?_eq_none_iff .start hreach ha).2 (.inr (.inr hnothing))⟩

end Checker

end TypeProbe
