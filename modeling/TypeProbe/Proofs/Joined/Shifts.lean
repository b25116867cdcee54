import TypeProbe.Proofs.Tree.Arena
import TypeProbe.Tree.Grammar.Diagnostic

/-!
# The same tree further back

A text that is read behind another one gives the same tokens and nodes, some bytes and some ids
further back. `Token.shift` and `Node.shift` say how they change, and `Arena.behind` is an arena
whose nodes come after those of another one. What the grammar does to arenas it does in the same way
to arenas behind others (`add_behind`, `extendRange_behind`, `modify_behind`).
-/

namespace TypeProbe

/-! ## Tokens, forms and nodes -/

/-- A range some bytes further back. -/
def TextRange.shift (bytes : Nat) (r : TextRange) : TextRange := ⟨r.start + bytes, r.length⟩

/-- A token some bytes further back. -/
def Token.shift (bytes : Nat) (t : Token) : Token := ⟨t.range.shift bytes, t.lexeme⟩

/-- A diagnostic some bytes further back. -/
def Diagnostic.shift (bytes : Nat) (d : Diagnostic) : Diagnostic := ⟨d.range.shift bytes, d.fault⟩

/-- A form whose tokens stand some bytes further back, and whose nodes have greater ids. -/
def Form.shift (bytes ids : Nat) : Form → Form
  | .error category child => .error category (child.map (· + ids))
  | .argument category title value => .argument category (title.map (· + ids)) (value + ids)
  | .assert test message => .assert (test + ids) (message.map (· + ids))
  | .assignment left right => .assignment (left + ids) (right + ids)
  | .assignmentExpression title right => .assignmentExpression (title + ids) (right + ids)
  | .augmentedAssignment op left right => .augmentedAssignment op (left + ids) (right + ids)
  | .await expression => .await (expression + ids)
  | .binaryOperation op token left right parenthesized =>
    .binaryOperation op (token.shift bytes) (left + ids) (right + ids) parenthesized
  | .breakLoop => .breakLoop
  | .call callee arguments => .call (callee + ids) (arguments.map (· + ids))
  | .classDef decorators title arguments body =>
    .classDef (decorators.map (· + ids)) (title + ids) (arguments.map (· + ids)) (body + ids)
  | .constant keyword => .constant keyword
  | .continueLoop => .continueLoop
  | .decorator expression => .decorator (expression + ids)
  | .del targets => .del (targets.map (· + ids))
  | .dictionary entries => .dictionary (entries.map (· + ids))
  | .dictionaryExpandEntry expression => .dictionaryExpandEntry (expression + ids)
  | .dictionaryKeyEntry key value => .dictionaryKeyEntry (key + ids) (value + ids)
  | .ellipsis => .ellipsis
  | .ifElse test body other => .ifElse (test + ids) (body + ids) (other.map (· + ids))
  | .importList items => .importList (items.map (· + ids))
  | .importAs source newName => .importAs (source + ids) (newName.map (· + ids))
  | .importFrom source imports wildcard usesParens missing =>
    .importFrom (source + ids) (imports.map (· + ids)) (wildcard.map (Token.shift bytes)) usesParens
      missing
  | .importFromAs title newName => .importFromAs (title + ids) (newName.map (· + ids))
  | .index base items => .index (base + ids) (items.map (· + ids))
  | .except typeExpression title body =>
    .except (typeExpression.map (· + ids)) (title.map (· + ids)) (body + ids)
  | .forLoop isAsync target iterable body other =>
    .forLoop isAsync (target + ids) (iterable + ids) (body + ids) (other.map (· + ids))
  | .formatString token literal => .formatString (token.shift bytes) literal
  | .function decorators isAsync title parameters hint body =>
    .function (decorators.map (· + ids)) isAsync (title + ids) (parameters.map (· + ids))
      (hint.map (· + ids)) (body + ids)
  | .global names => .global (names.map (· + ids))
  | .lambda parameters expression => .lambda (parameters.map (· + ids)) (expression + ids)
  | .list entries => .list (entries.map (· + ids))
  | .comprehension expression clauses =>
    .comprehension (expression + ids) (clauses.map (· + ids))
  | .comprehensionFor isAsync target iterable =>
    .comprehensionFor isAsync (target + ids) (iterable + ids)
  | .comprehensionIf test => .comprehensionIf (test + ids)
  | .memberAccess left member => .memberAccess (left + ids) (member + ids)
  | .module statements => .module (statements.map (· + ids))
  | .moduleName dots parts trailing => .moduleName dots (parts.map (· + ids)) trailing
  | .name token value => .name (token.shift bytes) value
  | .nonlocal names => .nonlocal (names.map (· + ids))
  | .number literal => .number literal
  | .parameter category title hint defaultValue =>
    .parameter category (title.map (· + ids)) (hint.map (· + ids)) (defaultValue.map (· + ids))
  | .pass => .pass
  | .raise exception cause => .raise (exception.map (· + ids)) (cause.map (· + ids))
  | .returnValue expression => .returnValue (expression.map (· + ids))
  | .set entries => .set (entries.map (· + ids))
  | .slice start stop step =>
    .slice (start.map (· + ids)) (stop.map (· + ids)) (step.map (· + ids))
  | .statementList statements => .statementList (statements.map (· + ids))
  | .stringList strings => .stringList (strings.map (· + ids))
  | .string token literal => .string (token.shift bytes) literal
  | .suite statements => .suite (statements.map (· + ids))
  | .ternary first test second => .ternary (first + ids) (test + ids) (second + ids)
  | .tuple items enclosed => .tuple (items.map (· + ids)) enclosed
  | .tryExcept body clauses other final =>
    .tryExcept (body + ids) (clauses.map (· + ids)) (other.map (· + ids)) (final.map (· + ids))
  | .typeHint value hint => .typeHint (value + ids) (hint + ids)
  | .unaryOperation op token expression =>
    .unaryOperation op (token.shift bytes) (expression + ids)
  | .unpack expression => .unpack (expression + ids)
  | .whileLoop test body other => .whileLoop (test + ids) (body + ids) (other.map (· + ids))
  | .withBlock isAsync items body => .withBlock isAsync (items.map (· + ids)) (body + ids)
  | .withItem expression target => .withItem (expression + ids) (target.map (· + ids))
  | .yield expression => .yield (expression.map (· + ids))
  | .yieldFrom expression => .yieldFrom (expression + ids)

/-- A node that stands some bytes further back, and whose relatives have greater ids. -/
def Node.shift (bytes ids : Nat) (n : Node) : Node :=
  ⟨n.range.shift bytes, n.parent.map (· + ids), n.form.shift bytes ids⟩

section Shift

variable (bytes ids : Nat)

@[simp] theorem TextRange.start_shift (r : TextRange) : (r.shift bytes).start = r.start + bytes :=
  rfl

@[simp] theorem TextRange.stop_shift (r : TextRange) : (r.shift bytes).stop = r.stop + bytes := by
  simp only [TextRange.shift, TextRange.stop]
  omega

@[simp] theorem TextRange.shift_zero (r : TextRange) : r.shift 0 = r := rfl

/-- A range between offsets is shifted with them. -/
theorem TextRange.ofBounds_shift (start stop : Nat) :
    TextRange.ofBounds (start + bytes) (stop + bytes) =
      (TextRange.ofBounds start stop).shift bytes := by
  simp only [TextRange.ofBounds, TextRange.shift, Nat.add_sub_add_right]

/-- Ranges are joined in the same way further back. -/
theorem TextRange.hull_shift (r s : TextRange) :
    (r.shift bytes).hull (s.shift bytes) = (r.hull s).shift bytes := by
  simp only [TextRange.hull, start_shift, stop_shift, Nat.add_min_add_right, Nat.add_max_add_right,
    ofBounds_shift]

@[simp] theorem Token.start_shift (t : Token) : (t.shift bytes).start = t.start + bytes := rfl

@[simp] theorem Token.stop_shift (t : Token) : (t.shift bytes).stop = t.stop + bytes :=
  TextRange.stop_shift bytes t.range

@[simp] theorem Token.kind_shift (t : Token) : (t.shift bytes).kind = t.kind := rfl

@[simp] theorem Token.keyword?_shift (t : Token) : (t.shift bytes).keyword? = t.keyword? := rfl

@[simp] theorem Token.operator?_shift (t : Token) : (t.shift bytes).operator? = t.operator? := rfl

@[simp] theorem Token.shift_zero (t : Token) : t.shift 0 = t := rfl

@[simp] theorem Token.shift_zero' : Token.shift 0 = id := rfl

@[simp] theorem Diagnostic.shift_zero : Diagnostic.shift 0 = id := rfl

@[simp] theorem Form.shift_zero (form : Form) : form.shift 0 0 = form := by
  cases form <;> simp [Form.shift]

@[simp] theorem Node.shift_zero (n : Node) : n.shift 0 0 = n := by
  simp [Node.shift]

/-- The children of a form have greater ids further back. -/
@[simp] theorem Form.children_shift (form : Form) :
    (form.shift bytes ids).children = form.children.map (· + ids) := by
  cases form <;> simp [Form.shift, Form.children, Option.toList_map]

/-- Parentheses are noted in the same way further back. -/
theorem Form.parenthesize_shift (form : Form) :
    (form.shift bytes ids).parenthesize = form.parenthesize.shift bytes ids := by
  cases form <;> rfl

/-- Of some ids, not all of which are there, those that are there are greater further back. -/
theorem filterMap_id_shift (items : List (Option NodeId)) :
    (items.map (Option.map (· + ids))).filterMap id = (items.filterMap id).map (· + ids) := by
  induction items with
  | nil => rfl
  | cons item items ih =>
    cases item with
    | none => exact ih
    | some item => exact congrArg _ ih

end Shift

/-! ## Arenas -/

namespace Arena

/-- The arena whose nodes come after those of another one, some bytes further back. -/
def behind (a : Arena) (bytes : Nat) (front : Arena) : Arena :=
  ⟨front.nodes ++ a.nodes.map (Node.shift bytes front.size)⟩

variable (a : Arena) (bytes : Nat) (front : Arena)

@[simp] theorem size_behind : (a.behind bytes front).size = a.size + front.size := by
  simp only [behind, size, Array.size_append, Array.size_map, Nat.add_comm]

/-- The nodes of the front arena keep their ids. -/
theorem get?_behind_of_lt {i : NodeId} (hi : i < front.size) :
    (a.behind bytes front).get? i = front.get? i :=
  Array.getElem?_append_left hi

/-- The others have greater ids. -/
theorem get?_behind (i : NodeId) :
    (a.behind bytes front).get? (i + front.size) =
      (a.get? i).map (Node.shift bytes front.size) := by
  simp only [behind, get?, size]
  rw [Array.getElem?_append_right (Nat.le_add_left ..), Nat.add_sub_cancel, Array.getElem?_map]

/-- Arenas with the same nodes are the same. -/
theorem ext_get? {a b : Arena} (h : ∀ i, a.get? i = b.get? i) : a = b := by
  obtain ⟨nodes⟩ := a
  obtain ⟨nodes'⟩ := b
  exact congrArg Arena.mk (Array.ext_getElem? h)

/-- No nodes come before those behind an empty arena. -/
theorem behind_empty : a.behind 0 empty = a := by
  refine ext_get? fun i => (a.get?_behind 0 empty i).trans ?_
  have hshift : Node.shift 0 empty.size = id := funext Node.shift_zero
  rw [hshift, Option.map_id, id]

/-- Nothing comes behind an arena that is followed by an empty one. -/
theorem empty_behind : empty.behind bytes front = front := by
  simp [behind, empty]

/-- Ranges are found further back. -/
theorem range?_behind (i : NodeId) :
    (a.behind bytes front).range? (i + front.size) = (a.range? i).map (TextRange.shift bytes) := by
  unfold range?
  rw [get?_behind, Option.map_map, Option.map_map]
  rfl

/-- Where a node starts is found further back. -/
theorem start?_behind (i : NodeId) :
    ((a.behind bytes front).range? (i + front.size)).map (·.start) =
      ((a.range? i).map (·.start)).map (· + bytes) := by
  rw [range?_behind, Option.map_map, Option.map_map]
  rfl

/-- Arenas behind the same one are the same if their nodes are. -/
theorem eq_behind {b : Arena} (hfront : ∀ i < front.size, b.get? i = front.get? i)
    (hback : ∀ i, b.get? (i + front.size) = (a.get? i).map (Node.shift bytes front.size)) :
    b = a.behind bytes front := by
  refine ext_get? fun i => ?_
  rcases Nat.lt_or_ge i front.size with hlt | hge
  · rw [hfront i hlt, get?_behind_of_lt _ _ _ hlt]
  · obtain ⟨j, rfl⟩ := Nat.exists_eq_add_of_le' hge
    rw [hback, get?_behind]

variable {bytes front a}

/-- A node is changed further back. -/
theorem modify_behind {i : NodeId} {change change' : Node → Node}
    (hchange : ∀ n : Node, change' (n.shift bytes front.size) =
      (change n).shift bytes front.size) :
    (a.behind bytes front).modify (i + front.size) change' =
      (a.modify i change).behind bytes front := by
  refine eq_behind _ _ _ (fun j hj => ?_) fun j => ?_
  · have hne := Nat.ne_of_gt (Nat.lt_of_lt_of_le hj (Nat.le_add_left front.size i))
    rw [get?_modify, if_neg hne, get?_behind_of_lt _ _ _ hj]
  · simp only [get?_modify, get?_behind, Nat.add_right_cancel_iff]
    split
    · rw [Option.map_map, Option.map_map]
      exact congrArg (Option.map · _) (funext hchange)
    · rfl

/-- A node is widened further back. -/
theorem extendRange_behind {i start stop stop' : Nat}
    (hstop : ∀ n, max (n + bytes) stop' = max n stop + bytes) :
    (a.behind bytes front).extendRange (i + front.size) (start + bytes) stop' =
      (a.extendRange i start stop).behind bytes front := by
  refine modify_behind fun n => ?_
  simp only [Node.shift, TextRange.start_shift, TextRange.stop_shift, Nat.add_min_add_right, hstop,
    TextRange.ofBounds_shift]

/-- A node is widened by parentheses further back. -/
theorem widened_behind {i start stop stop' : Nat}
    (hstop : ∀ n, max (n + bytes) stop' = max n stop + bytes) :
    (a.behind bytes front).widened (i + front.size) (start + bytes) stop' =
      (a.widened i start stop).behind bytes front := by
  unfold widened
  rw [extendRange_behind hstop]
  exact modify_behind fun n => congrArg (Node.mk _ _) (Form.parenthesize_shift ..)

/-- Ranges of nodes are joined further back. -/
theorem rangeOver_behind (range : TextRange) (ids : List NodeId) :
    (a.behind bytes front).rangeOver (range.shift bytes) (ids.map (· + front.size)) =
      (a.rangeOver range ids).shift bytes := by
  unfold rangeOver
  induction ids generalizing range with
  | nil => rfl
  | cons i ids ih =>
    simp only [List.map_cons, List.filterMap_cons, range?_behind]
    cases a.range? i with
    | none => exact ih range
    | some r =>
      simp only [Option.map_some, List.foldl_cons, TextRange.hull_shift]
      exact ih (range.hull r)

/-- A node is added further back. -/
theorem add_behind {start stop stop' : Nat} {form : Form}
    (hstop : max stop' (start + bytes) = max stop start + bytes) :
    (a.behind bytes front).add (start + bytes) stop' (form.shift bytes front.size) =
      (a.size + front.size, (a.add start stop form).2.behind bytes front) := by
  refine Prod.ext (size_behind _ _ _) (eq_behind _ _ _ (fun i hi => ?_) fun i => ?_)
  · have hnot : i ∉ form.children.map (· + front.size) := fun hmem => by
      obtain ⟨j, -, rfl⟩ := List.mem_map.1 hmem
      omega
    have hne : i ≠ a.size + front.size := by omega
    rw [get?_add, size_behind, if_neg hne, Form.children_shift, if_neg hnot,
      get?_behind_of_lt _ _ _ hi]
  · have hmem : i + front.size ∈ form.children.map (· + front.size) ↔ i ∈ form.children := by
      simp
    simp only [get?_add, size_behind, Form.children_shift, hstop, TextRange.ofBounds_shift,
      rangeOver_behind, get?_behind, Nat.add_right_cancel_iff, hmem]
    split
    · rfl
    · split
      · rw [Option.map_map, Option.map_map]
        exact congrArg (Option.map · _) (funext fun n => by simp [Node.shift])
      · rfl

end Arena

end TypeProbe
