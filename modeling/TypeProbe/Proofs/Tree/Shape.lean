import Mathlib.Logic.Relation
import TypeProbe.Proofs.Token.Coverage
import TypeProbe.Proofs.Tree.Statements

/-!
# The tree of a text

What the rules build, from the first token to the last: `ofText_accounts` says which nodes of a
text's arena belong to its tree, and `ofText_nests` where they stand in the text. Both hold of every
text, however wrong its grammar.

Not every node need belong to the tree. A function without a parameter list becomes an error node
around its name, and its decorators, which have been read, get no parent. `ofText_accounts` says
that this is the only way in which nodes are lost, and that the arena shows it.
-/

namespace TypeProbe

/-- A node is another one or is found below it, from parents to children. -/
def Arena.Reaches (a : Arena) : NodeId → NodeId → Prop :=
  Relation.ReflTransGen fun p c => c ∈ a.children p

namespace ParsedText

/-- A parser may begin with the tokens of a text. -/
theorem holds_initialState (text : List Char) :
    Holds (byteLength text) [.mark 0] (initialState (byteLength text) (Tokens.ofText text)) := by
  obtain ⟨htiles, front, hfront, htokens⟩ := Tokens.tiles_ofText text
  have hstate : (initialState (byteLength text) (Tokens.ofText text)).current ::
      (initialState (byteLength text) (Tokens.ofText text)).following = Tokens.ofText text := by
    rw [htokens]
    cases front <;> rfl
  refine ⟨⟨?_, Nat.zero_le _, front, hfront, ?_⟩, ?_, ?_, ⟨Nat.zero_le _, trivial⟩, rfl⟩
  · rw [hstate]
    exact htiles.pairwise
  · rw [hstate, htokens]
  · exact Owned.empty.congr rfl rfl fun item hitem => by
      rw [List.mem_singleton.1 hitem]
      trivial
  · intro p r hp
    cases hp

/-- The state of a parser at the end of a text, with what it has built. -/
def endState (length : Nat) (s : ParseState) : ParseState :=
  { s with current := endToken length, following := [], previousStop := 0 }

/-- The tree of a text accounts for the nodes of its arena and nests them; its root is the last
node. -/
theorem parseTokens_tree (text : List Char) :
    ∃ root s, parseTokens (byteLength text) (Tokens.ofText text) = (root, s) ∧
      root + 1 = s.arena.size ∧ Owned s.arena [.node root] ∧ Nested s.arena (byteLength text) ∧
      s.widenedOwned = false := by
  have hcall := Rule.parse_builds (byteLength text) (callLimit (Tokens.ofText text).length)
  have hitems := Builds.manyItems (fun _ => Builds.moduleItem hcall) (settled_mark.2 settled_nil)
    _ (holds_initialState text)
  -- What is left of the tokens stands before the end of the text, where the root stops.
  have hend : Holds (byteLength text) (pushed (Form.module _).children [.mark 0])
      (endState (byteLength text) _) := hitems.move
    ⟨List.pairwise_singleton _ _, Nat.zero_le _, [], nofun, rfl⟩ rfl rfl hitems.cursor.start_le
  have hroot := hend.add (Nat.le_refl (byteLength text)) nofun
  exact ⟨_, _, rfl, (Arena.size_add _ _ _ _).symm, hroot.owned, hroot.nested, hroot.unwidened⟩

/-- The nodes of a text come after their children. -/
theorem childrenFirst_ofText (text : String) : (ofText text).arena.ChildrenFirst := by
  obtain ⟨root, s, hparse, -, howned, -⟩ := parseTokens_tree text.toList
  have harena : (ofText text).arena = s.arena := by
    simp [ofText, hparse]
  rw [harena]
  exact howned.lt

/-- Every node of a text's arena but the root is a child of one later node, occurs there once and
nowhere else, and is reached from the root, or it is a decorator and decorators were lost. -/
theorem ofText_accounts (text : String) :
    let p := ofText text
    (p.root + 1 = p.arena.size ∧ p.arena.parent? p.root = none) ∧
      (∀ c i, p.arena.parent? c = some i ↔ c ∈ p.arena.children i) ∧
      (∀ i, (p.arena.children i).Nodup ∧ ∀ c ∈ p.arena.children i, c < i) ∧
      (∀ i < p.arena.size, i ≠ p.root → p.arena.parent? i = none →
        p.arena.kind? i = some .decorator) ∧
      ((∀ i < p.arena.size, i ≠ p.root → p.arena.parent? i ≠ none) ↔
        ∀ i, ¬ p.arena.LosesDecorators i) ∧
      ((∀ i < p.arena.size, p.arena.Reaches p.root i) ↔ ∀ i, ¬ p.arena.LosesDecorators i) := by
  intro p
  obtain ⟨root, s, hparse, hroot, howned, -⟩ := parseTokens_tree text.toList
  have harena : p.arena = s.arena := by
    simp [p, ofText, hparse]
  have hp : p.root = root := by
    simp [p, ofText, hparse]
  rw [harena, hp]
  have hlosing : (∀ i < s.arena.size, i ≠ root → s.arena.parent? i ≠ none) ↔
      ∀ i, ¬ s.arena.LosesDecorators i := by
    constructor
    · intro hparents i hi
      obtain ⟨hfree, hheld⟩ := howned.lost i hi
      exact hparents i (Arena.lt_size_of_kind? hi.1) (fun heq => hheld (heq ▸ List.mem_cons_self))
        hfree
    · intro hnone i hlt hne hfree
      rcases howned.free i hlt hfree with hheld | ⟨-, j, hj⟩
      · exact hne (List.mem_singleton.1 hheld)
      · exact hnone j hj
  refine ⟨⟨hroot, (howned.held_free root List.mem_cons_self).2⟩, howned.linked,
    fun i => ⟨howned.nodup i, howned.lt i⟩, fun i hlt hne hfree => ?_, hlosing, ?_⟩
  · rcases howned.free i hlt hfree with hheld | ⟨hkind, -⟩
    · exact absurd (List.mem_singleton.1 hheld) hne
    · exact hkind
  · rw [← hlosing]
    constructor
    · intro hreach i hlt hne hfree
      rcases Relation.ReflTransGen.cases_tail (hreach i hlt) with heq | ⟨parent, -, hchild⟩
      · exact hne heq
      · rw [(howned.linked i parent).2 hchild] at hfree
        cases hfree
    · intro hparents i
      -- Parents come later, so the way up ends, and it ends at the root.
      induction hn : s.arena.size - i using Nat.strong_induction_on generalizing i with
      | _ n ih =>
        intro hlt
        by_cases hne : i = root
        · exact hne ▸ .refl
        · obtain ⟨parent, hparent⟩ := Option.ne_none_iff_exists'.1 (hparents i hlt hne)
          have hchild := (howned.linked i parent).1 hparent
          have hlater := howned.lt parent i hchild
          have hsize := Arena.lt_size_of_mem_children hchild
          have hless : s.arena.size - parent < n := by
            subst hn
            exact Nat.sub_lt_sub_left hlt hlater
          exact (ih _ hless parent rfl hsize).tail hchild

/-- The one decorator of a function without parameters gets no parent. -/
example : (ofText "@d\ndef f\n").arena.LosesDecorators 1 := ⟨by cbv, 3, by cbv⟩

/-- Every node of a text's arena stands within the text and within its parent, the children of a
node stand one after the other, and no node is widened that has a parent. -/
theorem ofText_nests (text : String) :
    let p := ofText text
    (∀ i r, p.arena.range? i = some r → r.stop ≤ byteLength text.toList) ∧
      (∀ i, ∀ c ∈ p.arena.children i, ∃ r s, p.arena.range? i = some r ∧
        p.arena.range? c = some s ∧ r.start ≤ s.start ∧ s.stop ≤ r.stop) ∧
      (∀ i, (p.arena.children i).Pairwise fun b c => ∀ r s, p.arena.range? b = some r →
        p.arena.range? c = some s → r.stop ≤ s.start) ∧
      p.widenedOwned = false := by
  intro p
  obtain ⟨root, s, hparse, -, -, hnested, hwidened⟩ := parseTokens_tree text.toList
  have harena : p.arena = s.arena := by
    simp [p, ofText, hparse]
  have hp : p.widenedOwned = s.widenedOwned := by
    simp [p, ofText, hparse]
  rw [harena, hp]
  have hrange : ∀ i, ∀ c ∈ s.arena.children i, ∃ r, s.arena.range? i = some r := by
    intro i c hc
    have hget := Arena.get?_eq_some_iff.2 ⟨Arena.lt_size_of_mem_children hc, rfl⟩
    exact Option.isSome_iff_exists.1 (by simp [Arena.range?, hget])
  refine ⟨fun i r hr => (hnested i r hr).1, fun i c hc => ?_, fun i => ?_, hwidened⟩
  · obtain ⟨r, hr⟩ := hrange i c hc
    obtain ⟨t, ht, hbounds⟩ := (hnested i r hr).2.bounds hc
    exact ⟨r, t, hr, ht, hbounds⟩
  · cases hchildren : s.arena.children i with
    | nil => exact .nil
    | cons c children =>
      obtain ⟨r, hr⟩ := hrange i c (hchildren ▸ List.mem_cons_self)
      exact hchildren ▸ (hnested i r hr).2.pairwise

end ParsedText

end TypeProbe
