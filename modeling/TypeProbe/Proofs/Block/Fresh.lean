import TypeProbe.Proofs.Block.Tape
import TypeProbe.Proofs.Joined.Texts
import TypeProbe.Proofs.Tree.Shape

/-!
# What is read is a tree of its own

A parser that is given no node builds a tree of its own, whatever nodes there were before: they stay
as they are, the nodes below the new ones are new, and they stand between the token that the parser
began with and the one that it goes on with (`Parser.Fresh`). This follows from what two parsers
side by side build, where the first one begins without nodes.

`LineParser` gathers what is known of a parser that stays on its line. It takes no token that ends
the line or opens or closes a block (`LineParser.run`).
-/

open TypeProbe.Parser

namespace TypeProbe

namespace Arena

/-- The nodes of one arena are those of another one, which may have more. -/
structure Extends (a b : Arena) : Prop where
  /-- No node is lost. -/
  size : a.size ≤ b.size
  /-- Nodes stay what they are. -/
  form : ∀ i < a.size, b.form? i = a.form? i
  /-- They stay where they are. -/
  range : ∀ i < a.size, b.range? i = a.range? i

/-- The nodes below a node are not before the given one, and stand between two offsets. -/
def Spans (a : Arena) (first lo hi : Nat) (n : NodeId) : Prop :=
  ∀ y, a.Reaches n y →
    first ≤ y ∧ ∃ r, a.range? y = some r ∧ lo ≤ r.start ∧ r.stop ≤ hi

namespace Extends

variable {a b c : Arena} {n y : NodeId}

theorem refl (a : Arena) : a.Extends a := ⟨Nat.le_refl _, fun _ _ => rfl, fun _ _ => rfl⟩

theorem trans (hab : a.Extends b) (hbc : b.Extends c) : a.Extends c where
  size := Nat.le_trans hab.size hbc.size
  form i hi := (hbc.form i (Nat.lt_of_lt_of_le hi hab.size)).trans (hab.form i hi)
  range i hi := (hbc.range i (Nat.lt_of_lt_of_le hi hab.size)).trans (hab.range i hi)

/-- A node may be added. -/
theorem add (a : Arena) (start stop : Nat) (form : Form) : a.Extends (a.add start stop form).2 where
  size := by simp
  form i hi := by rw [form?_add, if_neg (Nat.ne_of_lt hi)]
  range i hi := by rw [range?_add, if_neg (Nat.ne_of_lt hi)]

/-- Nodes stay of the same kind. -/
theorem kind (h : a.Extends b) (hn : n < a.size) : b.kind? n = a.kind? n := by
  rw [kind?_eq, kind?_eq, h.form n hn]

/-- Nodes keep their children. -/
theorem children (h : a.Extends b) (hn : n < a.size) : b.children n = a.children n := by
  rw [children_eq, children_eq, h.form n hn]

/-- What is below a node stays below it. -/
theorem reaches (h : a.Extends b) (hreach : a.Reaches n y) : b.Reaches n y := by
  induction hreach with
  | refl => exact .refl
  | @tail p q _ hq ih =>
    rw [← h.children (lt_size_of_mem_children hq)] at hq
    exact ih.tail hq

/-- Below a node whose nodes all exist there is nothing new. -/
theorem reaches_iff (h : a.Extends b) (hn : ∀ y, a.Reaches n y → y < a.size) :
    b.Reaches n y ↔ a.Reaches n y := by
  refine ⟨fun hreach => ?_, h.reaches⟩
  induction hreach with
  | refl => exact .refl
  | tail _ hy ih => exact ih.tail (h.children (hn _ ih) ▸ hy)

end Extends

namespace Spans

variable {a b : Arena} {first lo hi : Nat} {n y : NodeId}

/-- The nodes below exist. -/
theorem lt_size (h : a.Spans first lo hi n) (hy : a.Reaches n y) : y < a.size := by
  obtain ⟨-, r, hr, -⟩ := h y hy
  obtain ⟨m, hm, -⟩ := Option.map_eq_some_iff.1 hr
  exact (get?_eq_some_iff.1 hm).1

/-- Wider bounds may take the place of others. -/
theorem mono (h : a.Spans first lo hi n) {first' lo' hi' : Nat} (hfirst : first' ≤ first)
    (hlo : lo' ≤ lo) (hhi : hi ≤ hi') : a.Spans first' lo' hi' n := fun y hy => by
  obtain ⟨hy, r, hr, hstart, hstop⟩ := h y hy
  exact ⟨Nat.le_trans hfirst hy, r, hr, Nat.le_trans hlo hstart, Nat.le_trans hstop hhi⟩

/-- More nodes may be added. -/
theorem grow (h : a.Spans first lo hi n) (hab : a.Extends b) : b.Spans first lo hi n := by
  intro y hy
  rw [hab.reaches_iff fun _ => h.lt_size] at hy
  rw [hab.range y (h.lt_size hy)]
  exact h y hy

/-- A node spans what stands around its children. -/
theorem of_children {r : TextRange} (hn : first ≤ n) (hr : a.range? n = some r) (hlo : lo ≤ r.start)
    (hhi : r.stop ≤ hi) (h : ∀ c ∈ a.children n, a.Spans first lo hi c) :
    a.Spans first lo hi n := by
  intro y hy
  rcases Relation.ReflTransGen.cases_head hy with rfl | ⟨c, hc, hcy⟩
  · exact ⟨hn, r, hr, hlo, hhi⟩
  · exact h c hc y hcy

end Spans

/-- In a nested arena a node spans its range. -/
theorem spans_of_nested {a : Arena} {hi top : Nat} {n : NodeId} {r : TextRange}
    (h : Nested a top) (hr : a.range? n = some r) (hhi : r.stop ≤ hi) : a.Spans 0 r.start hi n := by
  intro y hy
  refine ⟨Nat.zero_le y, ?_⟩
  induction hy with
  | refl => exact ⟨r, hr, Nat.le_refl _, hhi⟩
  | tail _ hy ih =>
    obtain ⟨s, hs, hstart, hstop⟩ := ih
    obtain ⟨t, ht, hlo, hle⟩ := (h _ s hs).2.bounds hy
    exact ⟨t, ht, by omega, by omega⟩

section Behind

variable (a front : Arena)

/-- The children of a node are found further back. -/
theorem children_behind (i : NodeId) : (a.behind 0 front).children (i + front.size) =
    (a.children i).map (· + front.size) := by
  unfold children
  rw [get?_behind]
  cases a.get? i with
  | none => rfl
  | some n => exact Form.children_shift 0 front.size n.form

/-- What is below a node is found further back. -/
theorem reaches_behind {i y : NodeId} (h : (a.behind 0 front).Reaches (i + front.size) y) :
    ∃ j, y = j + front.size ∧ a.Reaches i j := by
  induction h with
  | refl => exact ⟨i, rfl, .refl⟩
  | tail _ hy ih =>
    obtain ⟨j, rfl, hj⟩ := ih
    rw [children_behind] at hy
    obtain ⟨k, hk, rfl⟩ := List.mem_map.1 hy
    exact ⟨k, rfl, hj.tail hk⟩

/-- The nodes in front stay. -/
theorem extends_behind : front.Extends (a.behind 0 front) where
  size := by
    rw [size_behind]
    exact Nat.le_add_left ..
  form i hi := by rw [form?, form?, get?_behind_of_lt _ _ _ hi]
  range i hi := by rw [range?, range?, get?_behind_of_lt _ _ _ hi]

/-- A node further back spans the same offsets. -/
theorem spans_behind {lo hi : Nat} {i : NodeId} (h : a.Spans 0 lo hi i) :
    (a.behind 0 front).Spans front.size lo hi (i + front.size) := by
  intro y hy
  obtain ⟨j, rfl, hj⟩ := a.reaches_behind front hy
  obtain ⟨-, r, hr, hbounds⟩ := h j hj
  refine ⟨Nat.le_add_left .., r, ?_, hbounds⟩
  rw [range?_behind, hr]
  rfl

end Behind

end Arena

/-! ## Parsers that are given no node -/

/-- The state without its nodes. -/
def ParseState.bare (s : ParseState) : ParseState :=
  { s with arena := Arena.empty, widenedOwned := false }

/-- No fault has been noted before. -/
theorem Frame.before_nil : ∀ d ∈ ([] : List Diagnostic), d.range.start < 0 :=
  fun _ hd => absurd hd List.not_mem_nil

/-- A second parser that has some nodes before, on the way to the end of the stream. -/
def Frame.onto (front : Arena) : Frame := .back 0 front [] before_nil

/-- A second parser like the first, on a line before some tokens. -/
def Frame.upTo (rest : List Token) : Frame where
  bytes := 0
  front := Arena.empty
  faults := []
  before := before_nil
  whole := false
  rest := rest
  rest' := rest
  place _ := True
  level _ := True
  deeper _ _ h := h

/-- The place of a parser that goes on to the end of the stream. -/
def ParseState.spot (s : ParseState) : Spot := ⟨s.current, s.following, 0, s.depth⟩

/-- A parser and one without its nodes are side by side. -/
theorem ParseState.beside_bare {length : Nat} {s : ParseState} (h : Cursor length s) :
    Beside (Frame.onto s.arena) s.spot s.bare s := by
  obtain ⟨front, hfront, hends⟩ := h.ends
  exact ⟨rfl, rfl, (List.append_nil _).symm, by simp [spot, Frame.onto, Frame.back],
    Frame.runs_stream rfl rfl hfront hends.symm, fun _ _ => trivial, Nat.zero_max _,
    (Arena.empty_behind _ _).symm, Nat.zero_le _, by simp [bare, Frame.onto, Frame.back],
    fun _ _ => trivial, rfl, rfl, trivial⟩

/-- What a parser builds is a tree of its own for each of some nodes: the nodes that there were
before stay, and those below the given ones are new and stand between the next token and the one
that the parser goes on with. -/
structure Parser.Fresh (s s' : ParseState) (ids : List NodeId) : Prop where
  /-- The nodes that there were before stay. -/
  kept : s.arena.Extends s'.arena
  /-- What is below the given nodes is new, and stands where it was read. -/
  spans : ∀ i ∈ ids, s'.arena.Spans s.arena.size s.current.start s'.current.start i

/-- A parser that goes side by side with another one builds a tree of its own. -/
theorem Parser.fresh {α : Type} {length : Nat} {s : ParseState} {x : Parser α}
    {g : α → α} {out : α → List NodeId} (hs : Cursor length s)
    (halike : Alike (Frame.onto s.arena) s.spot g x x fun _ _ => True)
    (hbuilds : Builds length [.mark s.current.start] x fun a =>
      pushed (out a) [.mark s.current.start])
    (hout : ∀ a, out (g a) = (out a).map (· + s.arena.size)) :
    Fresh s (x.run s).2 (out (x.run s).1) := by
  obtain ⟨q, -, hbeside, hvalue, -⟩ := halike _ _ (s.beside_bare hs)
  have hempty : Owned s.bare.arena [.mark s.current.start] := by
    refine Owned.empty.congr rfl rfl fun item hitem => ?_
    rw [List.mem_singleton.1 hitem]
    trivial
  have hholds : Holds length [.mark s.current.start] s.bare := by
    refine ⟨⟨hs.ordered, hs.previous, hs.ends⟩, hempty, ?_, ⟨Nat.le_refl _, trivial⟩, rfl⟩
    intro p r hr
    cases hr
  have hbuilt := hbuilds _ hholds
  have harena : (x.run s).2.arena = (x.run s.bare).2.arena.behind 0 s.arena := hbeside.arena
  have htoken : (x.run s).2.current = (x.run s.bare).2.current :=
    hbeside.token'.trans hbeside.token.symm
  refine ⟨harena ▸ Arena.extends_behind _ _, fun i hi => ?_⟩
  rw [hvalue, hout] at hi
  obtain ⟨j, hj, rfl⟩ := List.mem_map.1 hi
  obtain ⟨lo, hlaid, harranged⟩ := hbuilt.laid.of_put .node fun _ _ _ h => h
  obtain ⟨r, hr, hlo, hstop⟩ := harranged.bounds hj
  rw [harena, htoken]
  refine Arena.spans_behind _ _ ((Arena.spans_of_nested hbuilt.nested hr hstop).mono
    (Nat.le_refl 0) (Nat.le_trans hlaid.1 hlo) (Nat.le_refl _))

/-! ## Parsers on a line -/

/-- What is known of a parser that stays on its line: the steps that it takes, what it builds, and
that it does not depend on what comes behind the line. It may have to start within the line. -/
structure LineParser {α : Type} (length w : Nat) (inside : Bool) (x : Parser α)
    (g : Nat → α → α) (out : α → List NodeId) : Prop where
  /-- It takes steps within a line. -/
  keeps : ∀ R : Course, (∀ s, R.Faulty s) → Keeps R x
  /-- It puts its nodes on the stack. -/
  builds : ∀ L, Builds length L x fun a => pushed (out a) L
  /-- It goes side by side with itself. -/
  alike : ∀ (F : Frame) p, F.bytes = 0 → 4 * p.after.length + 3 < w →
    (inside = true → endsLine p.token.kind = false) → Alike F p (g F.ids) x x fun _ _ => True
  /-- Its nodes have greater ids behind others. -/
  shifts : ∀ n a, out (g n a) = (out a).map (· + n)

/-- A parser on a line is side by side with itself up to the end of the line. -/
theorem ParseState.beside_upTo {s : ParseState} {line rest : List Token} {last : Token}
    (h : s.current :: s.following = line ++ last :: rest) (hlast : last.kind = .newLine)
    (hline : ∀ t ∈ line, endsLine t.kind = false) :
    ∃ p : Spot, p.token = s.current ∧ s.following = p.after ++ rest ∧
      Beside (Frame.upTo rest) p s s := by
  have hruns : ∀ {t us}, t :: us = line ++ [last] → (Frame.upTo rest).Runs t us := by
    clear h
    intro t us h
    induction line generalizing t us with
    | nil =>
      obtain ⟨rfl, rfl⟩ := List.cons.inj h
      exact .last hlast
    | cons u line ih =>
      obtain ⟨rfl, htail⟩ := List.cons.inj h
      have hends := hline t List.mem_cons_self
      cases us with
      | nil => exact absurd htail.symm (List.append_ne_nil_of_right_ne_nil _ (List.cons_ne_nil _ _))
      | cons v us =>
        refine .cons (Frame.not_isEnd hends) (fun hkind => ?_) ?_
        · rw [hkind] at hends
          cases hends
        · exact ih (fun w hw => hline w (List.mem_cons_of_mem _ hw)) htail
  obtain ⟨after, hafter⟩ : ∃ after, s.current :: after = line ++ [last] := by
    cases line with
    | nil => exact ⟨[], congrArg (· :: []) (List.cons.inj h).1⟩
    | cons t line => exact ⟨line ++ [last], congrArg (· :: _) (List.cons.inj h).1⟩
  have hfollowing : s.following = after ++ rest := by
    have heq : s.current :: s.following = s.current :: (after ++ rest) := by
      rw [h, ← List.cons_append, hafter, List.append_assoc]
      rfl
    exact (List.cons.inj heq).2
  refine ⟨⟨s.current, after, 0, s.depth⟩, rfl, hfollowing, ?_⟩
  exact ⟨rfl, rfl, hfollowing, by simpa [Frame.upTo] using hfollowing, hruns hafter,
    fun _ _ => trivial, Nat.zero_max _, (Arena.behind_empty _).symm, Nat.zero_le _,
    by simp [Frame.upTo], fun _ _ => trivial, rfl, rfl, trivial⟩

namespace LineParser

variable {α : Type} {length w k : Nat} {T : List Token} {inside : Bool} {x : Parser α}
  {g : Nat → α → α} {out : α → List NodeId} {s : ParseState}

/-- A parser on a line goes on to a later place of the line: it takes no layout token. -/
theorem run (hx : LineParser length w inside x g out) (hT : Tape length T) (hs : s.At T k)
    (hroom : 4 * s.following.length + 3 < w) (hline : InLine T k)
    (hinside : inside = true → endsLine s.current.kind = false) :
    Fresh s (x.run s).2 (out (x.run s).1) ∧
      (∀ i, (x.run s).2.arena.kind? i = some .suite → s.arena.kind? i = some .suite) ∧
      ∃ k', k ≤ k' ∧ (x.run s).2.At T k' ∧ InLine T k' ∧
        ∀ j t, k ≤ j → j < k' → T[j]? = some t → ¬ t.IsLayout := by
  have hfresh := Parser.fresh (hs.cursor hT) (hx.alike _ s.spot rfl hroom hinside) (hx.builds _)
    (hx.shifts s.arena.size)
  obtain ⟨hplace, hsuites⟩ := hx.keeps (Course.along hT) (fun _ => trivial) s
  obtain ⟨k', hk', hs'⟩ := hplace k hs
  -- What is taken comes before the end of the line, if the line has an end.
  have hbefore : ∀ m u, k ≤ m → T[m]? = some u → u.kind = .newLine →
      (∀ j t, k ≤ j → j < m → T[j]? = some t → endsLine t.kind = false) → k' ≤ m := by
    intro m u hkm hu hkind hends
    obtain ⟨hm, rfl⟩ := List.getElem?_eq_some_iff.1 hu
    have hsplit : s.current :: s.following =
        (T.drop k).take (m - k) ++ T[m] :: T.drop (m + 1) := by
      have hdrop : (T.drop k).drop (m - k) = T[m] :: T.drop (m + 1) := by
        rw [List.drop_drop, Nat.add_sub_cancel' hkm, List.getElem_cons_drop]
      rw [hs.tokens, ← hdrop, List.take_append_drop]
    have htaken : ∀ t ∈ (T.drop k).take (m - k), endsLine t.kind = false := by
      intro t ht
      obtain ⟨j, hj⟩ := List.mem_iff_getElem?.1 ht
      rw [List.getElem?_take] at hj
      split at hj
      · rw [List.getElem?_drop] at hj
        exact hends (k + j) t (Nat.le_add_right k j) (by omega) hj
      · cases hj
    obtain ⟨p, htoken, hfollowing, hbeside⟩ := s.beside_upTo hsplit hkind htaken
    have hlength : p.after.length ≤ s.following.length := by
      rw [hfollowing, List.length_append]
      exact Nat.le_add_right ..
    obtain ⟨q, -, hq, -⟩ := hx.alike _ p rfl (by omega) (fun h => htoken ▸ hinside h) s s hbeside
    have hrest := congrArg List.length hq.after
    rw [List.length_append] at hrest
    have hleft := hs'.length_following
    have hall : (Frame.upTo (T.drop (m + 1))).rest.length = T.length - (m + 1) := List.length_drop
    rw [hall] at hrest
    omega
  -- So no token that is taken is a layout token, one after the other.
  have hplain : ∀ j t, k ≤ j → j < k' → T[j]? = some t → ¬ t.IsLayout := by
    intro j
    induction j using Nat.strong_induction_on with
    | _ j ih =>
      intro t hkj hjk' ht hlayout
      have hends : ∀ i u, k ≤ i → i < j → T[i]? = some u → endsLine u.kind = false := by
        intro i u hki hij hu
        have hlt : i + 1 < T.length := by
          obtain ⟨hj, -⟩ := List.getElem?_eq_some_iff.1 ht
          omega
        exact Bool.or_eq_false_iff.2
          ⟨beq_false_of_ne fun hkind => ih i hij u hki (by omega) hu (.inl hkind),
            beq_false_of_ne (hT.ne_endOfStream hu hlt)⟩
      rcases hlayout with hkind | hmark
      · have := hbefore j t hkj ht hkind hends
        omega
      · -- A block is opened or closed at the start of a line only.
        rcases Nat.eq_or_lt_of_le hkj with rfl | hlt
        · exact hline t ht hmark
        · obtain ⟨i, rfl⟩ := Nat.exists_eq_add_of_le' (show 1 ≤ j by omega)
          have hi : ∃ u, T[i]? = some u := by
            obtain ⟨hj, -⟩ := List.getElem?_eq_some_iff.1 ht
            exact ⟨_, List.getElem?_eq_getElem (by omega)⟩
          obtain ⟨u, hu⟩ := hi
          exact hT.inLine_succ hu (ih i (Nat.lt_succ_self i) u (by omega) (by omega) hu) t ht hmark
  refine ⟨hfresh, hsuites, k', hk', hs', ?_, hplain⟩
  rcases Nat.eq_or_lt_of_le hk' with rfl | hlt
  · exact hline
  · obtain ⟨i, rfl⟩ := Nat.exists_eq_add_of_le' (show 1 ≤ k' by omega)
    obtain ⟨hi, -⟩ := List.getElem?_eq_some_iff.1 hs'.get
    have hget : T[i]? = some T[i] := List.getElem?_eq_getElem (by omega)
    exact hT.inLine_succ hget (hplain i _ (by omega) (Nat.lt_succ_self i) hget)

end LineParser

end TypeProbe
