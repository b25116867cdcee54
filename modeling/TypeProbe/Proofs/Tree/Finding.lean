import Mathlib.Data.List.Find
import TypeProbe.Proofs.Tree.Rooted
import TypeProbe.Tree.Lookup

/-!
# Finding nodes by their places

`Arena.findAt?` goes down from the root, at every node into the first child that touches the offset.
Of two neighbours that touch it this is the earlier one, so an offset at which a node starts may
lead elsewhere. Any other offset of a node leads to the node or below it
(`ParsedText.ofText_findAt?`): no child before the right one touches the offset, since the children
of a node stand one after the other, and the right one does, since a node holds what is below it
(`Arena.Nested.descend_reaches`).

The way up is `Arena.lineage`, which holds exactly the nodes from which a node is reached
(`Arena.Rooted.mem_lineage`). Ranges grow along it, so the nearest expression behind the first node
that covers a range is the nearest expression that covers it
(`Arena.Nested.enclosingExpression?_eq`).
-/

namespace TypeProbe

/-- Going down from a node leads to the node or below it. -/
theorem Arena.reaches_descend (a : Arena) (offset fuel : Nat) (m : NodeId) :
    a.Reaches m (a.descend offset fuel m) := by
  induction fuel generalizing m with
  | zero => exact .refl
  | succ fuel ih =>
    rw [descend]
    split
    · rename_i child hchild
      exact .head (List.mem_of_find?_eq_some hchild) (ih child)
    · exact .refl

namespace Nested

variable {a : Arena} {hi offset : Nat} {m n : NodeId} {r : TextRange}

/-- A node from which another one is reached holds its range. -/
theorem range_of_reaches (h : Nested a hi) (hreach : a.Reaches m n) (hr : a.range? n = some r) :
    ∃ s, a.range? m = some s ∧ s.start ≤ r.start ∧ r.stop ≤ s.stop := by
  induction hreach using Relation.ReflTransGen.head_induction_on with
  | refl => exact ⟨r, hr, Nat.le_refl _, Nat.le_refl _⟩
  | @head m c hc _ ih =>
    obtain ⟨s, hs, hstart, hstop⟩ := ih
    have hm := Arena.get?_eq_some_iff.2 ⟨Arena.lt_size_of_mem_children hc, rfl⟩
    obtain ⟨t, ht⟩ := Option.isSome_iff_exists.1
      (show (a.range? m).isSome by simp [Arena.range?, hm])
    obtain ⟨s', hs', hstart', hstop'⟩ := (h m t ht).2.bounds hc
    obtain rfl := Option.some.inj (hs.symm.trans hs')
    exact ⟨t, ht, by omega, by omega⟩

/-- A node from which another one is reached touches the offsets that the other one touches. -/
theorem touches_of_reaches (h : Nested a hi) (hreach : a.Reaches m n) (hr : a.range? n = some r)
    (hlo : r.start ≤ offset) (hhi : offset ≤ r.stop) : a.touches offset m = true := by
  obtain ⟨s, hs, hstart, hstop⟩ := h.range_of_reaches hreach hr
  simp only [Arena.touches, hs, Option.map_some, Option.getD_some, TextRange.touches,
    Bool.and_eq_true, decide_eq_true_eq]
  omega

/-- The first child that touches an offset behind the start of a node is the one from which the node
is reached. -/
theorem find?_touches (h : Nested a hi) {c : NodeId} (hc : c ∈ a.children m) (hcn : a.Reaches c n)
    (hr : a.range? n = some r) (hlo : r.start < offset) (hhi : offset ≤ r.stop) :
    (a.children m).find? (a.touches offset) = some c := by
  obtain ⟨s, hs, hstart, -⟩ := h.range_of_reaches hcn hr
  have hm := Arena.get?_eq_some_iff.2 ⟨Arena.lt_size_of_mem_children hc, rfl⟩
  obtain ⟨t, ht⟩ := Option.isSome_iff_exists.1 (show (a.range? m).isSome by simp [Arena.range?, hm])
  have hpairwise := (h m t ht).2.pairwise
  obtain ⟨before, after, hsplit⟩ := List.append_of_mem hc
  rw [hsplit] at hpairwise ⊢
  refine List.find?_eq_some_iff_append.2
    ⟨h.touches_of_reaches hcn hr (Nat.le_of_lt hlo) hhi, before, after, rfl, fun b hb => ?_⟩
  -- A child before it stops before the node starts.
  have hbefore := (List.pairwise_append.1 hpairwise).2.2 b hb c List.mem_cons_self
  cases hrange : a.range? b with
  | none => simp [Arena.touches, hrange]
  | some u =>
    have hstop := hbefore u s hrange hs
    simp only [Arena.touches, hrange, Option.map_some, Option.getD_some, TextRange.touches,
      Bool.not_eq_true', Bool.and_eq_false_iff, decide_eq_false_iff_not]
    omega

/-- From above a node, an offset behind its start leads to the node or below it. -/
theorem descend_reaches (h : Nested a hi) (hlt : a.ChildrenFirst) (hr : a.range? n = some r)
    (hlo : r.start < offset) (hhi : offset ≤ r.stop) {fuel : Nat} (hreach : a.Reaches m n)
    (hfuel : m ≤ fuel) : a.Reaches n (a.descend offset fuel m) := by
  induction fuel generalizing m with
  | zero =>
    obtain rfl := Nat.le_zero.1 hfuel
    obtain rfl := Nat.le_zero.1 (hreach.le hlt)
    exact .refl
  | succ fuel ih =>
    rcases Relation.ReflTransGen.cases_head hreach with rfl | ⟨c, hc, hcn⟩
    · exact a.reaches_descend offset (fuel + 1) m
    · rw [Arena.descend, h.find?_touches hc hcn hr hlo hhi]
      exact ih hcn (Nat.le_of_lt_succ (Nat.lt_of_lt_of_le (hlt m c hc) hfuel))

end Nested

/-! ## The nodes around a node -/

/-- Where a property stays once it holds, the first of those behind its beginning that have another
property is the first one that has both. -/
theorem find?_dropWhile_not {α : Type} {p q : α → Bool} {l : List α}
    (h : l.Pairwise fun x y => p x = true → p y = true) :
    (l.dropWhile fun x => !p x).find? q = l.find? fun x => p x && q x := by
  induction l with
  | nil => rfl
  | cons x l ih =>
    obtain ⟨hx, hl⟩ := List.pairwise_cons.1 h
    cases hp : p x with
    | false =>
      rw [List.dropWhile_cons_of_pos (by simp [hp]), ih hl,
        List.find?_cons_of_neg (by simp [hp])]
    | true =>
      rw [List.dropWhile_cons_of_neg (by simp [hp])]
      refine List.find?_congr fun y hy => ?_
      rcases List.mem_cons.1 hy with rfl | hy
      · rw [hp, Bool.true_and]
      · rw [hx y hy hp, Bool.true_and]

namespace Arena

variable {a : Arena} {root m n : NodeId} {fuel : Nat}

/-- The way up from a node goes on from its parent. -/
theorem ancestors_succ (hn : n < a.size) (fuel : Nat) :
    a.ancestors (fuel + 1) n = n :: ((a.parent? n).map (a.ancestors fuel)).getD [] := by
  have hget : a.get? n = some a.nodes[n] := get?_eq_some_iff.2 ⟨hn, rfl⟩
  rw [ancestors, hget]
  dsimp only
  rw [parent?, hget, Option.bind_some]
  cases a.nodes[n].parent <;> rfl

/-- There is no way up from a node that does not exist. -/
theorem ancestors_of_size_le (hn : a.size ≤ n) (fuel : Nat) : a.ancestors fuel n = [] := by
  cases fuel with
  | zero => rfl
  | succ fuel => rw [ancestors, get?_eq_none_iff.2 hn]

namespace Rooted

variable (h : a.Rooted root)
include h

/-- The nodes of a way up are nodes from which its first one is reached. -/
theorem reaches_of_mem_ancestors (hm : m ∈ a.ancestors fuel n) : a.Reaches m n := by
  induction fuel generalizing n with
  | zero => cases hm
  | succ fuel ih =>
    rcases Nat.lt_or_ge n a.size with hn | hn
    · rw [ancestors_succ hn] at hm
      rcases List.mem_cons.1 hm with rfl | hm
      · exact .refl
      · cases hparent : a.parent? n with
        | none =>
          rw [hparent] at hm
          cases hm
        | some p =>
          rw [hparent] at hm
          exact (ih hm).tail ((h.linked n p).1 hparent)
    · rw [ancestors_of_size_le hn] at hm
      cases hm

/-- The nodes from which a node is reached are on its way up, if that is long enough. -/
theorem mem_ancestors_of_reaches (hreach : a.Reaches m n) (hn : n < a.size)
    (hfuel : a.size ≤ n + fuel) : m ∈ a.ancestors fuel n := by
  induction fuel generalizing n with
  | zero => exact absurd hn (Nat.not_lt.2 hfuel)
  | succ fuel ih =>
    rw [ancestors_succ hn]
    rcases Relation.ReflTransGen.cases_tail hreach with rfl | ⟨p, hmp, hp⟩
    · exact List.mem_cons_self
    · rw [(h.linked n p).2 hp]
      have hlater : n + 1 ≤ p := h.lt p n hp
      refine List.mem_cons_of_mem _ (ih hmp (lt_size_of_mem_children hp) ?_)
      calc a.size ≤ n + 1 + fuel := by rwa [Nat.add_right_comm]
        _ ≤ p + fuel := Nat.add_le_add_right hlater fuel

/-- The lineage of a node holds the nodes from which it is reached. -/
theorem mem_lineage (hn : n < a.size) : m ∈ a.lineage n ↔ a.Reaches m n :=
  ⟨h.reaches_of_mem_ancestors, fun hreach =>
    h.mem_ancestors_of_reaches hreach hn (Nat.le_add_left _ _)⟩

/-- From the nodes on a way up those before them are reached. -/
theorem pairwise_ancestors (fuel : Nat) (n : NodeId) :
    (a.ancestors fuel n).Pairwise fun x y => a.Reaches y x := by
  induction fuel generalizing n with
  | zero => exact .nil
  | succ fuel ih =>
    rcases Nat.lt_or_ge n a.size with hn | hn
    · have htail : ∀ m ∈ a.ancestors (fuel + 1) n, a.Reaches m n :=
        fun m hm => h.reaches_of_mem_ancestors hm
      rw [ancestors_succ hn] at htail ⊢
      refine .cons (fun m hm => htail m (List.mem_cons_of_mem _ hm)) ?_
      cases a.parent? n with
      | none => exact .nil
      | some p => exact ih p
    · rw [ancestors_of_size_le hn]
      exact .nil

end Rooted

end Arena

namespace Nested

variable {a : Arena} {root m n : NodeId} {hi : Nat} {range : TextRange}

/-- What covers a range is reached only from nodes that cover it. -/
theorem covers_of_reaches (h : Nested a hi) (hreach : a.Reaches m n)
    (hn : a.covers range n = true) : a.covers range m = true := by
  cases hr : a.range? n with
  | none => simp [Arena.covers, hr] at hn
  | some r =>
    obtain ⟨s, hs, hstart, hstop⟩ := h.range_of_reaches hreach hr
    simp only [Arena.covers, hr, hs, Option.map_some, Option.getD_some, TextRange.covers,
      Bool.and_eq_true, decide_eq_true_eq] at hn ⊢
    omega

/-- The expression that is found around a node is the first one on its way up that covers the
range. -/
theorem enclosingExpression?_eq (h : Nested a hi) (hrooted : a.Rooted root) (n : NodeId)
    (range : TextRange) : a.enclosingExpression? n range =
      (a.lineage n).find? fun m => a.covers range m && a.isExpression m :=
  find?_dropWhile_not ((hrooted.pairwise_ancestors a.size n).imp fun hreach =>
    h.covers_of_reaches hreach)

end Nested

/-! ## Texts -/

/-- A hull of ranges holds the first of them. -/
theorem TextRange.le_foldl_hull (ranges : List TextRange) (r : TextRange) :
    (ranges.foldl hull r).start ≤ r.start ∧ r.stop ≤ (ranges.foldl hull r).stop := by
  induction ranges generalizing r with
  | nil => exact ⟨Nat.le_refl _, Nat.le_refl _⟩
  | cons s ranges ih =>
    obtain ⟨hstart, hstop⟩ := ih (hull r s)
    rw [List.foldl_cons]
    rw [stop_hull] at hstop
    exact ⟨Nat.le_trans hstart (Nat.min_le_left _ _), Nat.le_trans (Nat.le_max_left _ _) hstop⟩

namespace ParsedText

/-- The nodes of a text are nested in it. -/
theorem nested_ofText (text : String) : Nested (ofText text).arena (byteLength text.toList) := by
  obtain ⟨root, s, hparse, -, -, hnested, -⟩ := parseTokens_tree text.toList
  have harena : (ofText text).arena = s.arena := by
    simp [ofText, hparse]
  exact harena ▸ hnested

/-- The root of a text reaches over all of it. -/
theorem range?_root (text : String) :
    (ofText text).arena.range? (ofText text).root = some ⟨0, byteLength text.toList⟩ := by
  obtain ⟨statements, s, -, hmodule⟩ :=
    parseTokens_module (byteLength text.toList) (Tokens.ofText text.toList)
  have hnested := nested_ofText text
  simp only [ofText, hmodule] at hnested ⊢
  rw [Arena.range?_add, if_pos rfl]
  -- The range holds the bounds that are given, and nested as it is it does not stop behind them.
  have hholds := TextRange.le_foldl_hull
    ((Form.module statements).children.filterMap s.arena.range?)
    (TextRange.ofBounds 0 (max (byteLength text.toList) 0))
  have hinside := hnested _ _ ((Arena.range?_add _ _ _ _ _).trans (if_pos rfl))
  rw [← Arena.rangeOver, TextRange.start_ofBounds, TextRange.stop_ofBounds] at hholds
  generalize s.arena.rangeOver _ _ = r at hholds hinside ⊢
  obtain ⟨start, length⟩ := r
  simp only [TextRange.stop] at hholds hinside
  obtain rfl : start = 0 := by omega
  obtain rfl : length = byteLength text.toList := by omega
  rfl

/-- An offset of a node of a text, other than that of its start, leads to the node or below it; if
the node has no children, to itself. -/
theorem ofText_findAt? (text : String) :
    let p := ofText text
    ∀ n r offset, p.arena.Reaches p.root n → p.arena.range? n = some r → r.start < offset →
      offset ≤ r.stop → ∃ m, p.arena.findAt? p.root offset = some m ∧ p.arena.Reaches n m ∧
        (p.arena.children n = [] → m = n) := by
  intro p n r offset hreach hr hlo hhi
  have hnested := nested_ofText text
  have hrooted := rooted_ofText text
  have htouches := hnested.touches_of_reaches hreach hr (Nat.le_of_lt hlo) hhi
  have hfuel : p.root ≤ p.arena.size := hrooted.last ▸ Nat.le_succ _
  have hbelow := hnested.descend_reaches hrooted.lt hr hlo hhi hreach hfuel
  refine ⟨_, if_pos htouches, hbelow, fun hchildren => ?_⟩
  rcases Relation.ReflTransGen.cases_head hbelow with heq | ⟨c, hc, -⟩
  · exact heq.symm
  · rw [hchildren] at hc
    cases hc

/-- The argument of a call and the name it consists of stop at the same offset, which leads through
the one to the other. -/
theorem ofText_findAt?_argument :
    ((ofText "f(x)\n").arena.Reaches (ofText "f(x)\n").root 2 ∧
      (ofText "f(x)\n").arena.range? 2 = some ⟨2, 1⟩) ∧
    ∃ m, (ofText "f(x)\n").arena.findAt? (ofText "f(x)\n").root 3 = some m ∧
      (ofText "f(x)\n").arena.Reaches 2 m ∧
      ((ofText "f(x)\n").arena.children 2 = [] → m = 2) := by
  obtain ⟨hroot, hline, hcall, hrange⟩ :
      (ofText "f(x)\n").arena.children (ofText "f(x)\n").root = [4] ∧
      (ofText "f(x)\n").arena.children 4 = [3] ∧
      (ofText "f(x)\n").arena.children 3 = [0, 2] ∧
      (ofText "f(x)\n").arena.range? 2 = some ⟨2, 1⟩ := by decide +kernel
  have hreach : (ofText "f(x)\n").arena.Reaches (ofText "f(x)\n").root 2 := by
    refine .head (b := 4) ?_ (.head (b := 3) ?_ (.single ?_))
    · simp [hroot]
    · simp [hline]
    · simp [hcall]
  exact ⟨⟨hreach, hrange⟩,
    ofText_findAt? "f(x)\n" 2 ⟨2, 1⟩ 3 hreach hrange (by decide) (by decide)⟩

end ParsedText

end TypeProbe
