import TypeProbe.Proofs.Tree.Finding

/-!
# The nearest expression around a range

`Arena.enclosingExpression?` climbs twice: from a node to the first one at or above it whose range
holds a given range, and from there to the first expression. The second climb does not look at
ranges again, so it is right only where the nodes around a node hold what the node holds, as in the
tree of a text. There the result is the innermost of the expressions at or above the node that hold
the range, and it is missing only if there is none (`ParsedText.ofText_enclosingExpression?`).
-/

namespace TypeProbe

variable {a : Arena} {root m n : NodeId} {hi : Nat} {range : TextRange}

/-- A node is an expression, and its range holds another one. -/
def Arena.IsExpressionOver (a : Arena) (range : TextRange) (m : NodeId) : Prop :=
  a.isExpression m = true ∧
    ∃ r, a.range? m = some r ∧ r.start ≤ range.start ∧ range.stop ≤ r.stop

/-- What the second climb may stop at, given the first one. -/
theorem Arena.isExpressionOver_iff :
    a.IsExpressionOver range m ↔ (a.covers range m && a.isExpression m) = true := by
  rw [Bool.and_comm, Bool.and_eq_true, Arena.IsExpressionOver, Arena.covers]
  cases a.range? m with
  | none => simp
  | some r => simp [TextRange.covers]

/-- Two nodes of a tree that are reached from each other are one node. -/
theorem Arena.Reaches.antisymm (hlt : a.ChildrenFirst) (hmn : a.Reaches m n)
    (hnm : a.Reaches n m) : m = n :=
  Nat.le_antisymm (hnm.le hlt) (hmn.le hlt)

namespace Nested

/-- No expression is found around a node and a range exactly if none at or above the node holds the
range. -/
theorem enclosingExpression?_eq_none_iff (h : Nested a hi) (hrooted : a.Rooted root)
    (hn : n < a.size) : a.enclosingExpression? n range = none ↔
      ∀ m, a.Reaches m n → ¬ a.IsExpressionOver range m := by
  rw [h.enclosingExpression?_eq hrooted, List.find?_eq_none]
  exact forall_congr' fun m => by rw [hrooted.mem_lineage hn, Arena.isExpressionOver_iff]

/-- The expression that is found around a node and a range is the innermost one at or above the node
that holds the range. -/
theorem enclosingExpression?_eq_some_iff (h : Nested a hi) (hrooted : a.Rooted root)
    (hn : n < a.size) : a.enclosingExpression? n range = some m ↔
      (a.Reaches m n ∧ a.IsExpressionOver range m) ∧
        ∀ x, a.Reaches m x → a.Reaches x n → x ≠ m → ¬ a.IsExpressionOver range x := by
  have hfound : ∀ e, a.enclosingExpression? n range = some e →
      (a.Reaches e n ∧ a.IsExpressionOver range e) ∧
        ∀ x, a.Reaches x n → a.IsExpressionOver range x → a.Reaches x e := by
    intro e he
    rw [h.enclosingExpression?_eq hrooted, List.find?_eq_some_iff_append] at he
    obtain ⟨hover, before, after, hsplit, hbefore⟩ := he
    have hpairwise := hrooted.pairwise_ancestors a.size n
    rw [← Arena.lineage, hsplit] at hpairwise
    refine ⟨⟨(hrooted.mem_lineage hn).1 (by simp [hsplit]), Arena.isExpressionOver_iff.2 hover⟩,
      fun x hx hxover => ?_⟩
    -- An expression over the range is not before the first one on the way up.
    have hmem := (hrooted.mem_lineage hn).2 hx
    rw [hsplit, List.mem_append, List.mem_cons] at hmem
    rcases hmem with hx | rfl | hx
    · have hnot := hbefore x hx
      rw [Arena.isExpressionOver_iff.1 hxover] at hnot
      cases hnot
    · exact .refl
    · exact (List.pairwise_cons.1 (List.pairwise_append.1 hpairwise).2.1).1 x hx
  constructor
  · intro hm
    obtain ⟨hsuits, hinnermost⟩ := hfound m hm
    exact ⟨hsuits, fun x hmx hxn hne hover =>
      hne ((hinnermost x hxn hover).antisymm hrooted.lt hmx)⟩
  · rintro ⟨⟨hmn, hover⟩, hinnermost⟩
    cases hfind : a.enclosingExpression? n range with
    | none => exact absurd hover ((h.enclosingExpression?_eq_none_iff hrooted hn).1 hfind m hmn)
    | some e =>
      obtain ⟨⟨hen, heover⟩, houtside⟩ := hfound e hfind
      have hme := houtside m hmn hover
      by_contra hne
      exact hinnermost e hme hen (fun heq => hne (congrArg some heq)) heover

end Nested

namespace ParsedText

/-- From any node of the tree of a text the innermost expression at or around it that holds a range
is found, and nothing is found only if there is no such expression. -/
theorem ofText_enclosingExpression? (text : String) :
    let p := ofText text
    ∀ anchor range, p.arena.Reaches p.root anchor →
      (∀ e, p.arena.enclosingExpression? anchor range = some e ↔
        (p.arena.Reaches e anchor ∧ p.arena.IsExpressionOver range e) ∧
          ∀ x, p.arena.Reaches e x → p.arena.Reaches x anchor → x ≠ e →
            ¬ p.arena.IsExpressionOver range x) ∧
      (p.arena.enclosingExpression? anchor range = none ↔
        ∀ e, p.arena.Reaches e anchor → ¬ p.arena.IsExpressionOver range e) := by
  intro p anchor range hreach
  have hrooted := rooted_ofText text
  have hanchor := hrooted.lt_size_of_reaches hreach
  exact ⟨fun e => (nested_ofText text).enclosingExpression?_eq_some_iff hrooted hanchor,
    (nested_ofText text).enclosingExpression?_eq_none_iff hrooted hanchor⟩

/-- A keyword argument of a call is held by the call, and by no expression between the call and the
value of the argument. -/
theorem ofText_enclosingExpression?_keyword :
    (ofText "f(a.b, k=v)\n").arena.Reaches (ofText "f(a.b, k=v)\n").root 6 ∧
    ((ofText "f(a.b, k=v)\n").arena.Reaches 8 6 ∧
      (ofText "f(a.b, k=v)\n").arena.IsExpressionOver ⟨7, 3⟩ 8) ∧
    ∀ x, (ofText "f(a.b, k=v)\n").arena.Reaches 8 x → (ofText "f(a.b, k=v)\n").arena.Reaches x 6 →
      x ≠ 8 → ¬ (ofText "f(a.b, k=v)\n").arena.IsExpressionOver ⟨7, 3⟩ x := by
  obtain ⟨hroot, hline, hcall, hargument, hfound⟩ :
      (ofText "f(a.b, k=v)\n").arena.children (ofText "f(a.b, k=v)\n").root = [9] ∧
      (ofText "f(a.b, k=v)\n").arena.children 9 = [8] ∧
      (ofText "f(a.b, k=v)\n").arena.children 8 = [0, 4, 7] ∧
      (ofText "f(a.b, k=v)\n").arena.children 7 = [5, 6] ∧
      (ofText "f(a.b, k=v)\n").arena.enclosingExpression? 6 ⟨7, 3⟩ = some 8 := by decide +kernel
  have hreach : (ofText "f(a.b, k=v)\n").arena.Reaches (ofText "f(a.b, k=v)\n").root 6 := by
    refine .head (b := 9) ?_ (.head (b := 8) ?_ (.head (b := 7) ?_ (.single ?_)))
    · simp [hroot]
    · simp [hline]
    · simp [hcall]
    · simp [hargument]
  exact ⟨hreach, ((ofText_enclosingExpression? "f(a.b, k=v)\n" 6 ⟨7, 3⟩ hreach).1 8).1 hfound⟩

end ParsedText

end TypeProbe
