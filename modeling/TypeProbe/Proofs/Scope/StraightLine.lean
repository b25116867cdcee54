import Mathlib.Data.List.Induction
import TypeProbe.Proofs.Scope.Known
import TypeProbe.Proofs.Scope.Passage

/-!
# Modules that assign line by line

In a straight-line module every line gives the value of an expression to one or more names
(`Arena.StraightLine`), and the expressions are made of names, numbers, texts, tuples and operations
between two values (`Arena.IsPlain`). What a name stands for while such a module is executed is told
line by line (`Arena.executed`).

The bindings of such a module are known as a whole (`Bindings.ofTree_straightLine`): there is the one
scope of the module, and it lists the names of all lines in the order of the text, each with the value
of its line.
-/

namespace TypeProbe

/-- The declaration of a variable that receives a whole value. -/
def Declaration.ofValue (target value : NodeId) : Declaration :=
  ⟨.variable, target, some value, none, []⟩

/-- A line that gives one value to names, each of which stands at a node. -/
structure AssignedLine where
  /-- The names from left to right, with their nodes. -/
  targets : List (String × NodeId)
  /-- The expression of which all of them receive the value. -/
  value : NodeId

namespace AssignedLine

/-- Executes a line: its names stand for its value from then on. -/
def execute (values : String → Option NodeId) (line : AssignedLine) : String → Option NodeId :=
  fun x => if line.targets.any (·.1 == x) then some line.value else values x

/-- The declarations of the names of a line. -/
def declarations (line : AssignedLine) : List (String × Declaration) :=
  line.targets.map fun target => (target.1, .ofValue target.2 line.value)

/-- What the names stand for when lines have been executed in order. -/
def executed (lines : List AssignedLine) : String → Option NodeId := lines.foldl execute fun _ => none

end AssignedLine

namespace Arena

/-- An expression that is made of names, numbers, texts, tuples and operations between two values. -/
inductive IsPlain (a : Arena) : NodeId → Prop
  | name {n : NodeId} {token : Token} {x : String} (hform : a.form? n = some (.name token x)) :
    IsPlain a n
  | number {n : NodeId} {literal : NumberLiteral} (hform : a.form? n = some (.number literal)) :
    IsPlain a n
  | text {n : NodeId} {strings : List NodeId} (hform : a.form? n = some (.stringList strings))
    (hstrings : ∀ s ∈ strings, ∃ token literal, a.form? s = some (.string token literal)) :
    IsPlain a n
  | tuple {n : NodeId} {items : List NodeId} {enclosed : Bool}
    (hform : a.form? n = some (.tuple items enclosed)) (hitems : ∀ item ∈ items, IsPlain a item) :
    IsPlain a n
  | operation {n left right : NodeId} {op : Operator} {token : Token} {enclosed : Bool}
    (hform : a.form? n = some (.binaryOperation op token left right enclosed))
    (hleft : IsPlain a left) (hright : IsPlain a right) : IsPlain a n

/-- A statement gives the value of a plain expression to names, one behind the other. -/
inductive GivesTo (a : Arena) :
    (statement : NodeId) → (targets : List (String × NodeId)) → (value : NodeId) → Prop
  | last {n target value : NodeId} {token : Token} {x : String}
    (hform : a.form? n = some (.assignment target value))
    (hname : a.form? target = some (.name token x)) (hx : x ≠ "") (hvalue : a.IsPlain value) :
    GivesTo a n [(x, target)] value
  | chained {n target rest value : NodeId} {token : Token} {x : String}
    {targets : List (String × NodeId)} (hform : a.form? n = some (.assignment target rest))
    (hname : a.form? target = some (.name token x)) (hx : x ≠ "")
    (h : GivesTo a rest targets value) : GivesTo a n ((x, target) :: targets) value

/-- A node is a line with one statement, which gives a value to names. -/
def IsLine (a : Arena) (n : NodeId) (line : AssignedLine) : Prop :=
  ∃ statement, a.form? n = some (.statementList [statement]) ∧
    a.GivesTo statement line.targets line.value

/-- A module consists of nothing but lines that give values to names. -/
def StraightLine (a : Arena) (root : NodeId) (lines : List AssignedLine) : Prop :=
  ∃ ids, a.form? root = some (.module ids) ∧ List.Forall₂ a.IsLine ids lines

variable {a : Arena} {n statement value : NodeId} {targets : List (String × NodeId)}

/-- A plain expression is no assignment. -/
theorem IsPlain.form?_ne_assignment (h : a.IsPlain n) (left right : NodeId) :
    a.form? n ≠ some (.assignment left right) := by
  intro hform
  cases h with
  | name h | number h | text h | tuple h | operation h => cases hform.symm.trans h

/-- The value that a statement gives to names is a plain expression. -/
theorem GivesTo.isPlain (h : a.GivesTo statement targets value) : a.IsPlain value := by
  induction h with
  | last _ _ _ hvalue => exact hvalue
  | chained _ _ _ _ ih => exact ih

/-- The value at the far right of a plain expression is the expression itself. -/
theorem IsPlain.assignedValue_eq (h : a.IsPlain n) (fuel : Nat) :
    Binder.assignedValue a fuel n = n := by
  cases fuel with
  | zero => rfl
  | succ fuel =>
    unfold Binder.assignedValue
    split
    · exact absurd ‹_› (h.form?_ne_assignment _ _)
    · rfl

/-- The value at the far right of a statement is the one that it gives to names. -/
theorem GivesTo.assignedValue_eq {root : NodeId} (ha : a.Rooted root)
    (h : a.GivesTo statement targets value) {fuel : Nat} (hfuel : statement < fuel) :
    Binder.assignedValue a fuel statement = value := by
  induction h generalizing fuel with
  | last hform _ _ hvalue =>
    obtain ⟨fuel, rfl⟩ := Nat.exists_eq_add_one_of_ne_zero (Nat.ne_zero_of_lt hfuel)
    unfold Binder.assignedValue
    rw [hform]
    exact hvalue.assignedValue_eq fuel
  | chained hform _ _ _ ih =>
    obtain ⟨fuel, rfl⟩ := Nat.exists_eq_add_one_of_ne_zero (Nat.ne_zero_of_lt hfuel)
    unfold Binder.assignedValue
    rw [hform]
    exact ih (ha.lt_part hform (by simp [Form.children]) hfuel)

end Arena

/-! ## The bindings of a module with declarations in the scope of the module alone -/

namespace Bindings

/-- The declarations of every name, in their order. -/
def listedByName (ds : List (String × Declaration)) : Named (List Declaration) :=
  ds.foldl (fun symbols d => symbols.alter d.1 [] (· ++ [d.2])) []

/-- The bindings of a module in which variables are declared in the scope of the module alone. -/
def ofDeclarations (root : NodeId) (ds : List (String × Declaration)) : Bindings where
  scopes := #[⟨.module, root, none, listedByName ds, [], []⟩]
  declarations := (ds.map fun d => (d.2.node, d.2)).reverse
  returns := []
  yields := []
  members := []

variable {root n : NodeId} {x : String} {ds : List (String × Declaration)}

/-- A further declaration is made in the scope of the module. -/
theorem run_declare_ofDeclarations (hx : x ≠ "") (d : Declaration) :
    ((Binder.declare moduleScope x d).run (ofDeclarations root ds)).2 =
      ofDeclarations root (ds ++ [(x, d)]) := by
  have hsymbols : listedByName (ds ++ [(x, d)]) = (listedByName ds).alter x [] (· ++ [d]) := by
    rw [listedByName, List.foldl_append]
    rfl
  rw [Notes.run_declare _ _ hx]
  simp [declaredAt, target, ofDeclarations, scope?, moduleScope, hsymbols]

/-- The declarations that are listed under a name. -/
theorem get?_listedByName (x : String) (ds : List (String × Declaration)) :
    (listedByName ds).get? x =
      if (ds.filter (·.1 == x)).isEmpty then none else some ((ds.filter (·.1 == x)).map (·.2)) := by
  induction ds using List.reverseRecOn with
  | nil => rfl
  | append_singleton ds d ih =>
    unfold listedByName at ih ⊢
    rw [List.foldl_append, List.foldl_cons, List.foldl_nil, Named.get?_alter, List.filter_append]
    by_cases hd : x = d.1
    · subst hd
      rw [ih]
      by_cases hempty : (ds.filter (·.1 == d.1)).isEmpty
      · rw [List.isEmpty_iff.1 hempty]
        simp
      · simp [hempty]
    · have hne : (d.1 == x) = false := by simpa using Ne.symm hd
      rw [if_neg hd, ih, List.filter_singleton, hne, cond_false, List.append_nil]

/-- Every node belongs to the only scope. -/
theorem scopeContaining_ofDeclarations (a : Arena) (n : NodeId) :
    (ofDeclarations root ds).scopeContaining a n = moduleScope := by
  have honly : ∀ {m scope}, (ofDeclarations root ds).scopeOf? m = some scope →
      scope = moduleScope := by
    intro m scope h
    obtain ⟨hlt, -⟩ := Array.findIdx?_eq_some_iff_getElem.1 h
    exact Nat.lt_one_iff.1 hlt
  have hfrom : ∀ fuel part outside current,
      (ofDeclarations root ds).scopeFrom a n fuel part outside current = moduleScope := by
    intro fuel
    induction fuel with
    | zero => exact fun _ _ _ => rfl
    | succ fuel ih =>
      intro part outside current
      cases current with
      | none => rfl
      | some current =>
        unfold scopeFrom
        split
        · rfl
        · split
          split
          · rename_i hscope
            exact honly (Option.ite_none_right_eq_some.1 hscope).2
          · exact ih _ _ _
  exact hfrom _ _ _ _

/-- A name stands for all its declarations. -/
theorem lookup?_ofDeclarations (x : String) :
    (ofDeclarations root ds).lookup? moduleScope x =
      if (ds.filter (·.1 == x)).isEmpty then none
      else some (moduleScope, (ds.filter (·.1 == x)).map (·.2)) := by
  have hlookup : (ofDeclarations root ds).lookup? moduleScope x =
      ((listedByName ds).get? x).elim none fun declarations => some (moduleScope, declarations) := by
    cases hget : (listedByName ds).get? x <;>
      simp [lookup?, lookupFrom, ofDeclarations, scope?, moduleScope, hget]
  rw [hlookup, get?_listedByName]
  split <;> rfl

end Bindings

/-! ## The walk of a straight-line module -/

namespace Binder

variable {a : Arena} {root n statement value : NodeId} {targets : List (String × NodeId)}
  {lines : List AssignedLine} {ids : List NodeId} {context : WalkContext} {fuel : Nat}
  {ds : List (String × Declaration)}

/-- Steps that change nothing change nothing together. -/
theorem runEach_of_same {β : Type} {step : β → Binder Unit} {ys : List β}
    (h : ∀ y ∈ ys, ∀ b : Bindings, ((step y).run b).2 = b) (b : Bindings) :
    runEach step ys b = b := by
  induction ys with
  | nil => rfl
  | cons y ys ih =>
    show runEach step ys ((step y).run b).2 = b
    rw [h y List.mem_cons_self b]
    exact ih fun z hz => h z (List.mem_cons_of_mem y hz)

/-- The walk of a plain expression declares nothing. -/
theorem run_walk_isPlain (h : a.IsPlain n) (b : Bindings) :
    ((walk a fuel context n).run b).2 = b := by
  induction h generalizing fuel b with
  | name hform | number hform =>
    cases fuel with
    | zero => rfl
    | succ fuel => exact run_walk_of_sharesScope hform rfl
  | text hform hstrings =>
    cases fuel with
    | zero => rfl
    | succ fuel =>
      refine (run_walk_of_sharesScope hform rfl).trans (runEach_of_same (fun s hs b => ?_) b)
      obtain ⟨token, literal, hstring⟩ := hstrings s hs
      cases fuel with
      | zero => rfl
      | succ fuel => exact run_walk_of_sharesScope hstring rfl
  | tuple hform _ ih =>
    cases fuel with
    | zero => rfl
    | succ fuel =>
      exact (run_walk_of_sharesScope hform rfl).trans (runEach_of_same (fun item hitem b =>
        ih item hitem b) b)
  | operation hform _ _ ihleft ihright =>
    cases fuel with
    | zero => rfl
    | succ fuel =>
      refine (run_walk_of_sharesScope hform rfl).trans (runEach_of_same (fun part hpart b => ?_) b)
      rcases List.mem_pair.1 hpart with rfl | rfl
      · exact ihleft b
      · exact ihright b

/-- The walk of an assignment to a name declares the name and goes on with the right side. -/
theorem run_walk_assignment {target right : NodeId} {token : Token} {x : String}
    (hform : a.form? n = some (.assignment target right))
    (hname : a.form? target = some (.name token x)) (hx : x ≠ "")
    (hvalue : assignedValue a a.size right = value) (ds : List (String × Declaration)) :
    ((walk a (fuel + 1) ⟨Bindings.moduleScope, none⟩ n).run
      (Bindings.ofDeclarations root ds)).2 =
      ((walk a fuel ⟨Bindings.moduleScope, none⟩ right).run (Bindings.ofDeclarations root
        (ds ++ [(x, .ofValue target value)]))).2 := by
  have hvisit : ((visitPlain a ⟨Bindings.moduleScope, none⟩ n (.assignment target right)).run
      (Bindings.ofDeclarations root ds)).2 = Bindings.ofDeclarations root
        (ds ++ [(x, .ofValue target value)]) := by
    rw [← Bindings.run_declare_ofDeclarations hx, ← hvalue]
    show ((bindTarget a _ (a.size + 1) target _ none []).run _).2 = _
    unfold bindTarget
    rw [hname]
    rfl
  rw [run_walk_of_sharesScope hform rfl, hvisit]
  show ((walk a fuel _ right).run ((walk a fuel _ target).run _).2).2 = _
  rw [run_walk_isPlain (.name hname)]

/-- The walk of a statement that gives a value to names declares them. -/
theorem run_walk_givesTo (ha : a.Rooted root) (h : a.GivesTo statement targets value)
    (hfuel : statement < fuel) (ds : List (String × Declaration)) :
    ((walk a fuel ⟨Bindings.moduleScope, none⟩ statement).run
      (Bindings.ofDeclarations root ds)).2 =
      Bindings.ofDeclarations root (ds ++ AssignedLine.declarations ⟨targets, value⟩) := by
  induction h generalizing fuel ds with
  | last hform hname hx hvalue =>
    obtain ⟨fuel, rfl⟩ := Nat.exists_eq_add_one_of_ne_zero (Nat.ne_zero_of_lt hfuel)
    rw [run_walk_assignment hform hname hx (hvalue.assignedValue_eq _), run_walk_isPlain hvalue]
    rfl
  | chained hform hname hx h ih =>
    obtain ⟨fuel, rfl⟩ := Nat.exists_eq_add_one_of_ne_zero (Nat.ne_zero_of_lt hfuel)
    have hrest := ha.lt_part hform (List.mem_cons_of_mem _ List.mem_cons_self) hfuel
    have hsize : _ < a.size := Nat.lt_trans (ha.lt _ _ (Arena.mem_children_of_form? hform
      (List.mem_cons_of_mem _ List.mem_cons_self))) (Arena.lt_size_of_form? hform)
    rw [run_walk_assignment hform hname hx (h.assignedValue_eq ha hsize), ih hrest,
      List.append_assoc]
    rfl

/-- The walk of lines that give values to names declares all of these names. -/
theorem runEach_walk_lines (ha : a.Rooted root) (h : List.Forall₂ a.IsLine ids lines)
    (hfuel : ∀ id ∈ ids, id < fuel) (ds : List (String × Declaration)) :
    runEach (walk a fuel ⟨Bindings.moduleScope, none⟩) ids (Bindings.ofDeclarations root ds) =
      Bindings.ofDeclarations root (ds ++ lines.flatMap AssignedLine.declarations) := by
  induction h generalizing ds with
  | nil => rw [List.flatMap_nil, List.append_nil]; rfl
  | @cons id line ids lines hline _ ih =>
    obtain ⟨statement, hform, hgives⟩ := hline
    have hid := hfuel id List.mem_cons_self
    obtain ⟨fuel, rfl⟩ := Nat.exists_eq_add_one_of_ne_zero (Nat.ne_zero_of_lt hid)
    have hstatement := ha.lt_part hform List.mem_cons_self hid
    have hwalk : ((walk a (fuel + 1) ⟨Bindings.moduleScope, none⟩ id).run
        (Bindings.ofDeclarations root ds)).2 = Bindings.ofDeclarations root
          (ds ++ line.declarations) :=
      (run_walk_of_sharesScope hform rfl).trans (run_walk_givesTo ha hgives hstatement ds)
    show runEach _ ids ((walk a (fuel + 1) _ id).run _).2 = _
    rw [hwalk, ih (fun m hm => hfuel m (List.mem_cons_of_mem id hm)), List.append_assoc,
      List.flatMap_cons]

end Binder

/-- The bindings of a straight-line module list the names of its lines in order, each with the value
of its line. -/
theorem Bindings.ofTree_straightLine {a : Arena} {root : NodeId} {lines : List AssignedLine}
    (ha : a.Rooted root) (h : a.StraightLine root lines) :
    ofTree a root = ofDeclarations root (lines.flatMap AssignedLine.declarations) := by
  obtain ⟨ids, hform, hlines⟩ := h
  have hchildren : a.children root = ids := Arena.children_of_form? hform
  have hlt : ∀ id ∈ ids, id < a.size + 1 := fun id hid =>
    Nat.lt_succ_of_lt (Nat.lt_trans (ha.lt root id (hchildren ▸ hid)) (Arena.lt_size_of_form? hform))
  have hwalk := Binder.runEach_walk_lines ha hlines hlt []
  rw [List.nil_append, ← hchildren, ← Binder.run_forIn] at hwalk
  exact hwalk

end TypeProbe
