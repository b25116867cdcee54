import Mathlib.Algebra.BigOperators.Group.List.Basic
import Mathlib.Algebra.GroupWithZero.Nat
import TypeProbe.Proofs.Tree.Shape
import TypeProbe.Proofs.Tree.StatementParts

/-!
# Trees of texts

`Arena.Rooted` gathers what the tree of every text is like (`ParsedText.rooted_ofText`): parents and
children agree, children come before their parents and occur once, the root is the one module, and
of parts holds what forms fix. So an expression holds nothing but expressions
(`Rooted.inline_of_reaches`).

In such a tree a node is found below another one in one way only. `Arena.times` counts the ways, and
`Rooted.times_eq` goes down with it: a node is found at the top, or below one of the children.
-/

namespace TypeProbe

namespace Arena

/-- An arena holds a tree with the given root. -/
structure Rooted (a : Arena) (root : NodeId) : Prop where
  /-- Parents and children agree. -/
  linked : ∀ c p, a.parent? c = some p ↔ c ∈ a.children p
  /-- Children come before their parents. -/
  lt : a.ChildrenFirst
  /-- No child occurs twice. -/
  nodup : ∀ p, (a.children p).Nodup
  /-- The root is no part of another node. -/
  free : a.parent? root = none
  /-- The root is the last node. -/
  last : root + 1 = a.size
  /-- The root is the only module. -/
  kind_root : ∀ i, a.kind? i = some .module ↔ i = root
  /-- Of parts holds what forms fix. -/
  parts : ∀ i form, a.form? i = some form → ∀ part ∈ form.fixedParts, a.Has part

variable {a : Arena} {root n m x : NodeId} {form : Form}

/-- Ids do not grow on the way down. -/
theorem Reaches.le (hlt : a.ChildrenFirst) (h : a.Reaches n x) : x ≤ n := by
  induction h with
  | refl => exact Nat.le_refl _
  | tail _ hchild ih => exact Nat.le_trans (Nat.le_of_lt (hlt _ _ hchild)) ih

open Classical in
/-- How many times a node is found at or below another one: once, or not at all. -/
noncomputable def times (a : Arena) (x n : NodeId) : Nat := if a.Reaches n x then 1 else 0

open Classical in
/-- A node that is found is found once. -/
theorem times_eq_one (h : a.Reaches n x) : a.times x n = 1 := if_pos h

open Classical in
/-- A node that is not found is found no times. -/
theorem times_eq_zero (h : ¬ a.Reaches n x) : a.times x n = 0 := if_neg h

open Classical in
/-- A node is found once at most. -/
theorem times_le_one : a.times x n ≤ 1 := by
  unfold times
  split <;> decide

/-- Below a node without children only the node itself is found. -/
theorem times_eq_zero_of_children (h : a.children n = []) (hne : n ≠ x) : a.times x n = 0 := by
  refine times_eq_zero fun hreach => ?_
  rcases Relation.ReflTransGen.cases_head hreach with heq | ⟨c, hc, -⟩
  · exact hne heq
  · rw [h] at hc
    cases hc

namespace Rooted

variable (h : a.Rooted root)
include h

/-- What is found from the root exists. -/
theorem lt_size_of_reaches (hx : a.Reaches root x) : x < a.size :=
  Nat.lt_of_le_of_lt (hx.le h.lt) (h.last ▸ Nat.lt_succ_self root)

/-- A node that is a child of another one has a form. -/
theorem exists_form (hn : n ∈ a.children m) : ∃ form, a.form? n = some form := by
  have hlt := lt_size_of_parent? ((h.linked n m).2 hn)
  exact ⟨_, by rw [form?, get?_eq_some_iff.2 ⟨hlt, rfl⟩]; rfl⟩

/-- What an expression or a returning statement is made of are expressions. -/
theorem inline_of_mem_children (hform : a.form? n = some form) (hinline : form.holdsInline = true)
    (hm : m ∈ form.children) : a.Has (m, .inline) := by
  obtain ⟨trait, hpart, rfl | ⟨kind, rfl, hkind⟩⟩ := Form.exists_mem_fixedParts hinline hm
  · exact h.parts n form hform _ hpart
  · exact ⟨kind, h.parts n form hform _ hpart, hkind⟩

/-- Below an expression there are only expressions. -/
theorem inline_of_reaches (hn : a.Has (n, .inline)) (hreach : a.Reaches n m) :
    a.Has (m, .inline) := by
  induction hreach with
  | refl => exact hn
  | @tail p m _ hm ih =>
    obtain ⟨kind, hkind, hinline⟩ := ih
    obtain ⟨form, hform, rfl⟩ := form?_of_kind? hkind
    rw [children_of_form? hform] at hm
    exact h.inline_of_mem_children hform (by simp [Form.holdsInline, hinline]) hm

/-- A node is a child of one node only. -/
theorem parent_unique (hn : x ∈ a.children n) (hm : x ∈ a.children m) : n = m :=
  Option.some.inj (((h.linked x n).2 hn).symm.trans ((h.linked x m).2 hm))

/-- A node that a form lists among its children has the node of the form as its parent. -/
theorem parent?_of_form? (hform : a.form? n = some form) (hx : x ∈ form.children) :
    a.parent? x = some n := (h.linked x n).2 (mem_children_of_form? hform hx)

/-- Two nodes above a third one are above each other. -/
theorem reaches_total (hn : a.Reaches n x) (hm : a.Reaches m x) :
    a.Reaches n m ∨ a.Reaches m n := by
  have hunique : Relator.RightUnique (Function.swap fun p c => c ∈ a.children p) :=
    fun _ _ _ hn hm => h.parent_unique hn hm
  rcases Relation.ReflTransGen.total_of_right_unique hunique hn.swap hm.swap with hup | hup
  · exact .inr hup.swap
  · exact .inl hup.swap

/-- A node is found below one of the children only. -/
theorem child_unique {c d : NodeId} (hc : c ∈ a.children n) (hd : d ∈ a.children n)
    (hcx : a.Reaches c x) (hdx : a.Reaches d x) : c = d := by
  -- A child that is above another one would be above their parent, too.
  have hbelow : ∀ {c d}, c ∈ a.children n → d ∈ a.children n → a.Reaches c d → c = d := by
    intro c d hc hd hcd
    rcases Relation.ReflTransGen.cases_tail hcd with heq | ⟨p, hcp, hp⟩
    · exact heq.symm
    · obtain rfl := h.parent_unique hp hd
      exact absurd (h.lt _ c hc) (Nat.not_lt.2 (Reaches.le h.lt hcp))
  rcases h.reaches_total hcx hdx with hcd | hdc
  · exact hbelow hc hd hcd
  · exact (hbelow hd hc hdc).symm

/-- A node is found at the top, or below one of the children. -/
theorem times_eq (x n : NodeId) :
    a.times x n = (if n = x then 1 else 0) + ((a.children n).map (a.times x)).sum := by
  have hnone : (∀ c ∈ a.children n, ¬ a.Reaches c x) → ((a.children n).map (a.times x)).sum = 0 :=
    fun hnot => List.sum_eq_zero fun k hk => by
      obtain ⟨c, hc, rfl⟩ := List.mem_map.1 hk
      exact times_eq_zero (hnot c hc)
  -- Nothing is found below itself, and nothing below two children.
  by_cases hnx : n = x
  · subst hnx
    rw [hnone fun c hc hreach => Nat.not_lt.2 (hreach.le h.lt) (h.lt n c hc), if_pos rfl,
      times_eq_one .refl]
  · rw [if_neg hnx, Nat.zero_add]
    by_cases hreach : a.Reaches n x
    · obtain ⟨c, hc, hcx⟩ := (Relation.ReflTransGen.cases_head hreach).resolve_left hnx
      have hothers : ∀ d ≠ c, d ∈ a.children n → a.times x d = 0 := fun d hne hd =>
        times_eq_zero fun hdx => hne (h.child_unique hd hc hdx hcx)
      rw [List.sum_map_eq_nsmul_single c _ hothers, List.count_eq_one_of_mem (h.nodup n) hc,
        times_eq_one hreach, times_eq_one hcx, one_nsmul]
    · rw [hnone fun c hc hcx => hreach (.head hc hcx), times_eq_zero hreach]

end Rooted

end Arena

namespace ParsedText

/-- The root of a text is a module that is added to what the rules for statements make. -/
theorem parseTokens_module (length : Nat) (tokens : List Token) :
    ∃ statements, ∃ s : ParseState, s.arena.Knows [] ∧ parseTokens length tokens = (s.arena.size,
      { s with arena := (s.arena.add 0 length (.module statements)).2 }) :=
  ⟨_, _, Shapes.manyPlain (fun _ => Shapes.moduleItem (Rule.parse_shapes _)) _ .empty, rfl⟩

/-- The arena of a text holds a tree. -/
theorem rooted_ofText (text : String) : (ofText text).arena.Rooted (ofText text).root := by
  obtain ⟨root, s, hparse, hlast, howned, -⟩ := parseTokens_tree text.toList
  obtain ⟨statements, s', hknows, hmodule⟩ :=
    parseTokens_module (byteLength text.toList) (Tokens.ofText text.toList)
  have harena : (ofText text).arena = s.arena := by
    simp [ofText, hparse]
  have hp : (ofText text).root = root := by
    simp [ofText, hparse]
  obtain ⟨rfl, rfl⟩ := Prod.mk.inj (hparse.symm.trans hmodule)
  rw [harena, hp]
  refine ⟨howned.linked, howned.lt, howned.nodup, (howned.held_free _ List.mem_cons_self).2, hlast,
    fun i => ?_, fun i form hform => ?_⟩
  · rw [Arena.kind?_add]
    split
    · simpa [Form.kind]
    · refine iff_of_false (fun hkind => ?_) ‹_›
      obtain ⟨form, hform, hmodule⟩ := Arena.form?_of_kind? hkind
      exact (hknows.shaped i form hform).1 hmodule
  · rw [Arena.form?_add] at hform
    split at hform
    · obtain rfl := Option.some.inj hform
      exact List.forall_mem_nil _
    · exact (Arena.Knows.mk hknows.shaped (hknows.shaped i form hform).2).known_add

end ParsedText

end TypeProbe
