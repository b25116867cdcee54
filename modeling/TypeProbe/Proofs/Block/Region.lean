import TypeProbe.Proofs.Block.Fresh
import TypeProbe.Proofs.Block.Nesting

/-!
# What is read between two places

A `Region` says what a parser has done between two places: the nodes that it goes on with stand
there, and each suite that it has added has all of its block (`Arena.Contains`), which ends where
the indentations that open blocks say. One region may follow another one (`Region.append`), and its
nodes may become the children of a new one (`Region.add`, `Region.addSuite`).
-/

open TypeProbe.Parser

namespace TypeProbe

/-- A node starts where the token at a place does. -/
def Arena.StartsAt (a : Arena) (T : List Token) (x : NodeId) (h : Nat) : Prop :=
  ∃ r t, a.range? x = some r ∧ T[h]? = some t ∧ r.start = t.start

/-- A suite that starts at one place has the block that is opened at another one, among the nodes
below some roots: it stops before the token behind its block, and what starts between its own start
and the end of the block is below it. -/
structure Arena.Contains (a : Arena) (T : List Token) (opens : Nat → Prop) (roots : List NodeId)
    (k : Nat) (x : NodeId) (h m : Nat) : Prop where
  /-- A block is opened there. -/
  opened : opens m
  /-- It is closed, and the suite has what is within. -/
  closed : ∃ e d u, e < k ∧ Closes T opens m e ∧ T[e]? = some d ∧ T[e + 1]? = some u ∧
    a.Spans 0 0 u.start x ∧
    ∀ root ∈ roots, ∀ y r t, a.Reaches root y → a.range? y = some r → T[h]? = some t →
      t.start < r.start → r.start < d.start → a.Reaches x y

/-- What a parser does from one place to another one. -/
structure Region (T : List Token) (s₀ s : ParseState) (i k : Nat) (roots : List NodeId)
    (opens : Nat → Prop) : Prop where
  /-- It goes on to a later place. -/
  le : i ≤ k
  /-- It begins at the first place. -/
  start : s₀.At T i
  /-- It goes on from the second one. -/
  place : s.At T k
  /-- The nodes that there were before stay. -/
  grown : s₀.arena.Extends s.arena
  /-- The roots are new, and stand between the places. -/
  spans : ∀ root ∈ roots, s.arena.Spans s₀.arena.size s₀.current.start s.current.start root
  /-- Blocks are opened between the places. -/
  within : ∀ m, opens m → i ≤ m ∧ m < k
  /-- Where a block is opened, a suite starts at its opening. -/
  opened : ∀ m, opens m →
    ∃ h x, Opening T h m ∧ s.arena.kind? x = some .suite ∧ s.arena.StartsAt T x h
  /-- New suites start at a token of a line, and have their blocks. -/
  suites : ∀ x, s₀.arena.size ≤ x → s.arena.kind? x = some .suite →
    ∃ h, i ≤ h ∧ InLine T h ∧ s.arena.StartsAt T x h ∧
      ∀ m, Opening T h m → s.arena.Contains T opens roots k x h m

/-! ## Places of nodes -/

namespace Arena

variable {a b : Arena} {T : List Token} {opens opens' : Nat → Prop} {roots others : List NodeId}
  {x : NodeId} {h m j k first lo hi start stop : Nat} {form : Form}

/-- A node that has a range exists. -/
theorem lt_size_of_range? {r : TextRange} (hr : a.range? x = some r) : x < a.size := by
  obtain ⟨n, hn, -⟩ := Option.map_eq_some_iff.1 hr
  exact (get?_eq_some_iff.1 hn).1

/-- A node that starts at a place still does when there are more nodes. -/
theorem StartsAt.grow (hx : a.StartsAt T x h) (hab : a.Extends b) : b.StartsAt T x h := by
  obtain ⟨r, t, hr, ht, hstart⟩ := hx
  exact ⟨r, t, (hab.range x (lt_size_of_range? hr)).trans hr, ht, hstart⟩

/-- A new node spans what its children do, and starts no later than it is said to. -/
theorem Spans.add (form : Form) (hchildren : ∀ c ∈ form.children, a.Spans first lo hi c)
    (hfirst : first ≤ a.size) (hlo : lo ≤ start) (hstart : start ≤ hi) (hstop : stop ≤ hi) :
    (a.add start stop form).2.Spans first lo hi a.size ∧
      ∃ r, (a.add start stop form).2.range? a.size = some r ∧ lo ≤ r.start ∧ r.start ≤ start := by
  have hranges : ∀ r ∈ form.children.filterMap a.range?, lo ≤ r.start ∧ r.stop ≤ hi := by
    intro r hr
    obtain ⟨c, hc, hrange⟩ := List.mem_filterMap.1 hr
    obtain ⟨-, r', hrange', hbounds⟩ := hchildren c hc c .refl
    rwa [Option.some.inj (hrange.symm.trans hrange')]
  have hbase := TextRange.stop_ofBounds start (max stop start)
  obtain ⟨⟨hlow, hhigh⟩, hall⟩ := TextRange.foldl_hull (form.children.filterMap a.range?)
    (TextRange.ofBounds start (max stop start)) hlo (fun r hr => (hranges r hr).1) (by omega)
    (fun r hr => (hranges r hr).2)
  have hrange := range?_add a start stop form a.size
  rw [if_pos rfl] at hrange
  refine ⟨Spans.of_children hfirst hrange hlow hhigh fun c hc => ?_,
    _, hrange, hlow, (hall _ List.mem_cons_self).1⟩
  rw [children_add, if_pos rfl] at hc
  exact (hchildren c hc).grow (Extends.add a start stop form)

namespace Contains

/-- What is read behind the block is not within it. -/
theorem before (hx : a.Contains T opens roots j x h m) (hab : a.Extends b) (hjk : j ≤ k)
    (hroots : ∀ root ∈ roots, ∃ first lo hi, a.Spans first lo hi root)
    (hothers : ∀ root ∈ others, ∀ y r, b.Reaches root y → b.range? y = some r →
      ∀ e d, e < j → T[e]? = some d → d.start ≤ r.start)
    (hopens : ∀ n < j, opens n ↔ opens' n) :
    b.Contains T opens' (roots ++ others) k x h m := by
  obtain ⟨e, d, u, hej, hcloses, hd, hu, hspans, hall⟩ := hx.closed
  have hme := hcloses.nests.le
  refine ⟨(hopens m (by omega)).1 hx.opened, e, d, u, by omega,
    ⟨hcloses.nests.congr fun n _ hn => hopens n (by omega), hcloses.dedent⟩, hd, hu,
    hspans.grow hab, fun root hroot y r t hy hr ht hlo hhi => ?_⟩
  rcases List.mem_append.1 hroot with hroot | hroot
  · obtain ⟨first, lo, hi, hbounds⟩ := hroots root hroot
    rw [hab.reaches_iff fun _ => hbounds.lt_size] at hy
    rw [hab.range y (hbounds.lt_size hy)] at hr
    exact hab.reaches (hall root hroot y r t hy hr ht hlo hhi)
  · exact absurd (hothers root hroot y r hy hr e d hej hd) (Nat.not_le_of_lt hhi)

/-- What was read in front of the block is not within it. -/
theorem behind (hx : a.Contains T opens roots k x h m)
    (hothers : ∀ root ∈ others, ∀ y r t, a.Reaches root y → a.range? y = some r →
      T[h]? = some t → r.start ≤ t.start)
    (hopens : ∀ n, m ≤ n → (opens n ↔ opens' n)) :
    a.Contains T opens' (others ++ roots) k x h m := by
  obtain ⟨e, d, u, hek, hcloses, hd, hu, hspans, hall⟩ := hx.closed
  refine ⟨(hopens m (Nat.le_refl m)).1 hx.opened, e, d, u, hek,
    ⟨hcloses.nests.congr fun n hn _ => hopens n (by omega), hcloses.dedent⟩, hd, hu, hspans,
    fun root hroot y r t hy hr ht hlo hhi => ?_⟩
  rcases List.mem_append.1 hroot with hroot | hroot
  · exact absurd (hothers root hroot y r t hy hr ht) (Nat.not_le_of_lt hlo)
  · exact hall root hroot y r t hy hr ht hlo hhi

/-- The roots may become the children of a node that does not start later. -/
theorem add (hx : a.Contains T opens roots k x h m) (hchildren : ∀ c ∈ form.children, c ∈ roots)
    (hroots : ∀ root ∈ roots, ∃ first lo hi, a.Spans first lo hi root)
    (hstart : ∀ r t, (a.add start stop form).2.range? a.size = some r → T[h]? = some t →
      r.start ≤ t.start) (hopens : ∀ n, m ≤ n → (opens n ↔ opens' n)) :
    (a.add start stop form).2.Contains T opens' [a.size] k x h m := by
  obtain ⟨e, d, u, hek, hcloses, hd, hu, hspans, hall⟩ := hx.closed
  have hgrown := Extends.add a start stop form
  refine ⟨(hopens m (Nat.le_refl m)).1 hx.opened, e, d, u, hek,
    ⟨hcloses.nests.congr fun n hn _ => hopens n (by omega), hcloses.dedent⟩, hd, hu,
    hspans.grow hgrown, fun root hroot y r t hy hr ht hlo hhi => ?_⟩
  rw [List.mem_singleton.1 hroot] at hy
  rcases Relation.ReflTransGen.cases_head hy with rfl | ⟨c, hc, hcy⟩
  · exact absurd (hstart r t hr ht) (Nat.not_le_of_lt hlo)
  · have hc : c ∈ (a.add start stop form).2.children a.size := hc
    rw [children_add, if_pos rfl] at hc
    obtain ⟨first, lo, hi, hbounds⟩ := hroots c (hchildren c hc)
    have hcy : (a.add start stop form).2.Reaches c y := hcy
    rw [hgrown.reaches_iff fun _ => hbounds.lt_size] at hcy
    rw [hgrown.range y (hbounds.lt_size hcy)] at hr
    exact hgrown.reaches (hall c (hchildren c hc) y r t hcy hr ht hlo hhi)

end Contains

end Arena

/-! ## Regions -/

namespace Region

variable {length i j k : Nat} {T : List Token} {s₀ s s' : ParseState}
  {roots roots' : List NodeId} {opens opens' : Nat → Prop}

/-- Nothing has been done yet. -/
theorem refl (h : s.At T i) : Region T s s i i [] fun _ => False where
  le := Nat.le_refl i
  start := h
  place := h
  grown := .refl _
  spans := nofun
  within _ := False.elim
  opened _ := False.elim
  suites _ hnew hkind := absurd (Arena.lt_size_of_kind? hkind) (Nat.not_lt_of_le hnew)

/-- A parser that adds no suite. -/
theorem of_fresh (hs : s.At T i) (hs' : s'.At T k) (hle : i ≤ k) (hfresh : Fresh s s' roots)
    (hsuites : ∀ x, s'.arena.kind? x = some .suite → s.arena.kind? x = some .suite) :
    Region T s s' i k roots fun _ => False where
  le := hle
  start := hs
  place := hs'
  grown := hfresh.kept
  spans := hfresh.spans
  within _ := False.elim
  opened _ := False.elim
  suites x hnew hkind :=
    absurd (Arena.lt_size_of_kind? (hsuites x hkind)) (Nat.not_lt_of_le hnew)

/-- A parser that adds no node. -/
theorem of_same (hs : s.At T i) (hs' : s'.At T k) (hle : i ≤ k) (harena : s'.arena = s.arena) :
    Region T s s' i k [] fun _ => False :=
  of_fresh hs hs' hle ⟨harena ▸ .refl _, nofun⟩ fun _ h => harena ▸ h

/-- Each root spans something. -/
theorem rooted (h : Region T s₀ s i k roots opens) :
    ∀ root ∈ roots, ∃ first lo hi, s.arena.Spans first lo hi root :=
  fun root hroot => ⟨_, _, _, h.spans root hroot⟩

/-- Suites start behind the place where a parser begins. -/
theorem start_le (h : Region T s₀ s i k roots opens) (hT : Tape length T) {x : NodeId}
    (hnew : s₀.arena.size ≤ x) (hkind : s.arena.kind? x = some .suite) :
    ∀ r, s.arena.range? x = some r → s₀.current.start ≤ r.start := by
  intro r hr
  obtain ⟨l, hl, -, ⟨r', t, hr', ht, hstart⟩, -⟩ := h.suites x hnew hkind
  obtain rfl := Option.some.inj (hr.symm.trans hr')
  rw [hstart]
  exact hT.start_le h.start.get ht hl

/-- Roots may be forgotten. -/
theorem mono (h : Region T s₀ s i k roots opens) (hroots : ∀ root ∈ roots', root ∈ roots) :
    Region T s₀ s i k roots' opens where
  le := h.le
  start := h.start
  place := h.place
  grown := h.grown
  spans root hroot := h.spans root (hroots root hroot)
  within := h.within
  opened := h.opened
  suites x hnew hkind := by
    obtain ⟨l, hl, hline, hstarts, hcontains⟩ := h.suites x hnew hkind
    refine ⟨l, hl, hline, hstarts, fun m hm => ?_⟩
    obtain ⟨hopens, e, d, u, hek, hcloses, hd, hu, hspans, hall⟩ := hcontains m hm
    exact ⟨hopens, e, d, u, hek, hcloses, hd, hu, hspans, fun root hroot =>
      hall root (hroots root hroot)⟩

/-- One region may follow another one. -/
theorem append (hT : Tape length T) (h : Region T s₀ s i j roots opens)
    (h' : Region T s s' j k roots' opens') :
    Region T s₀ s' i k (roots ++ roots') fun m => opens m ∨ opens' m where
  le := Nat.le_trans h.le h'.le
  start := h.start
  place := h'.place
  grown := h.grown.trans h'.grown
  spans root hroot := by
    rcases List.mem_append.1 hroot with hroot | hroot
    · exact ((h.spans root hroot).grow h'.grown).mono (Nat.le_refl _) (Nat.le_refl _)
        (hT.start_le h.place.get h'.place.get h'.le)
    · exact (h'.spans root hroot).mono h.grown.size
        (hT.start_le h.start.get h.place.get h.le) (Nat.le_refl _)
  within m hm := by
    have hij := h.le
    have hjk := h'.le
    rcases hm with hm | hm
    · have := h.within m hm
      omega
    · have := h'.within m hm
      omega
  opened m hm := by
    rcases hm with hm | hm
    · obtain ⟨l, x, hopen, hkind, hstarts⟩ := h.opened m hm
      refine ⟨l, x, hopen, ?_, hstarts.grow h'.grown⟩
      rw [h'.grown.kind (Arena.lt_size_of_kind? hkind)]
      exact hkind
    · exact h'.opened m hm
  suites x hnew hkind := by
    rcases Nat.lt_or_ge x s.arena.size with hx | hx
    · rw [h'.grown.kind hx] at hkind
      obtain ⟨l, hl, hline, hstarts, hcontains⟩ := h.suites x hnew hkind
      refine ⟨l, hl, hline, hstarts.grow h'.grown, fun m hm => ?_⟩
      refine (hcontains m hm).before h'.grown h'.le h.rooted ?_ fun n hn => ?_
      · intro root hroot y r hy hr e d hej hd
        obtain ⟨-, r', hr', hlo, -⟩ := h'.spans root hroot y hy
        obtain rfl := Option.some.inj (hr.symm.trans hr')
        exact Nat.le_trans (hT.start_le hd h.place.get (Nat.le_of_lt hej)) hlo
      · refine ⟨.inl, fun hor => hor.resolve_right fun hn' => ?_⟩
        have := (h'.within n hn').1
        omega
    · obtain ⟨l, hl, hline, hstarts, hcontains⟩ := h'.suites x hx hkind
      refine ⟨l, Nat.le_trans h.le hl, hline, hstarts, fun m hm => ?_⟩
      refine (hcontains m hm).behind ?_ fun n hn => ?_
      · intro root hroot y r t hy hr ht
        have hspans := (h.spans root hroot).grow h'.grown
        obtain ⟨-, r', hr', -, hstop⟩ := hspans y hy
        obtain rfl := Option.some.inj (hr.symm.trans hr')
        exact Nat.le_trans r.start_le_stop
          (Nat.le_trans hstop (hT.start_le h.place.get ht hl))
      · refine ⟨.inr, fun hor => hor.resolve_left fun hn' => ?_⟩
        have hlt := (h.within n hn').2
        have hle := (h'.within m (hcontains m hm).opened).1
        omega

section Add

variable {start stop : Nat} {form : Form}

/-- What is known of old suites when a node is added that starts no later than they do. -/
theorem suites_add (h : Region T s₀ s i k roots opens) (form : Form)
    (hchildren : ∀ c ∈ form.children, c ∈ roots)
    (hnode : ∃ r, (s.arena.add start stop form).2.range? s.arena.size = some r ∧ r.start ≤ start)
    (hsuites : ∀ x, s₀.arena.size ≤ x → s.arena.kind? x = some .suite →
      ∀ r, s.arena.range? x = some r → start ≤ r.start)
    (hopens : ∀ h m n, i ≤ h → Opening T h m → opens m → m ≤ n → (opens n ↔ opens' n)) {x : NodeId}
    (hnew : s₀.arena.size ≤ x) (hkind : s.arena.kind? x = some .suite) :
    ∃ h, i ≤ h ∧ InLine T h ∧ (s.arena.add start stop form).2.StartsAt T x h ∧ ∀ m, Opening T h m →
      (s.arena.add start stop form).2.Contains T opens' [s.arena.size] k x h m := by
  obtain ⟨l, hl, hline, hstarts, hcontains⟩ := h.suites x hnew hkind
  refine ⟨l, hl, hline, hstarts.grow (.add _ _ _ _), fun m hm => ?_⟩
  refine (hcontains m hm).add hchildren h.rooted (fun r t hr ht => ?_)
    fun n => hopens l m n hl hm (hcontains m hm).opened
  obtain ⟨r', hr', hle⟩ := hnode
  obtain ⟨r'', t', hr'', ht', hstart⟩ := hstarts
  obtain rfl := Option.some.inj (hr.symm.trans hr')
  obtain rfl := Option.some.inj (ht.symm.trans ht')
  have := hsuites x hnew hkind r'' hr''
  omega

/-- The roots become the children of a node that is no suite. -/
theorem add (h : Region T s₀ s i k roots opens) (hform : form.kind ≠ .suite)
    (hchildren : ∀ c ∈ form.children, c ∈ roots) (hlo : s₀.current.start ≤ start)
    (hstart : start ≤ s.current.start) (hstop : stop ≤ s.current.start)
    (hsuites : ∀ x, s₀.arena.size ≤ x → s.arena.kind? x = some .suite →
      ∀ r, s.arena.range? x = some r → start ≤ r.start) :
    Region T s₀ { s with arena := (s.arena.add start stop form).2 } i k [s.arena.size] opens := by
  have hgrown := Arena.Extends.add s.arena start stop form
  obtain ⟨hspans, r, hr, -, hle⟩ := Arena.Spans.add form (fun c hc => h.spans c (hchildren c hc))
    h.grown.size hlo hstart hstop
  refine ⟨h.le, h.start, h.place.same rfl rfl rfl, h.grown.trans hgrown, ?_, h.within, ?_, ?_⟩
  · intro root hroot
    exact List.mem_singleton.1 hroot ▸ hspans
  · intro m hm
    obtain ⟨l, x, hopen, hkind, hstarts⟩ := h.opened m hm
    exact ⟨l, x, hopen, (hgrown.kind (Arena.lt_size_of_kind? hkind)).trans hkind,
      hstarts.grow hgrown⟩
  · intro x hnew hkind
    rw [Arena.kind?_add] at hkind
    split at hkind
    · exact absurd (Option.some.inj hkind) hform
    · exact h.suites_add form hchildren ⟨r, hr, hle⟩ hsuites (fun _ _ _ _ _ _ _ => .rfl) hnew hkind

/-- The roots become the children of a suite. Where its block is opened, the parser has gone on to
the place behind it. -/
theorem addSuite (hT : Tape length T) (h : Region T s₀ s i k roots opens) (hline : InLine T i)
    {statements : List NodeId} (hchildren : ∀ c ∈ statements, c ∈ roots)
    (hstop : stop ≤ s.current.start)
    (hclosed : ∀ m, Opening T i m → ∃ e, k = e + 1 ∧ Closes T opens m e) :
    Region T s₀ { s with arena := (s.arena.add s₀.current.start stop (.suite statements)).2 } i k
      [s.arena.size] fun m => opens m ∨ Opening T i m := by
  have hgrown := Arena.Extends.add s.arena s₀.current.start stop (.suite statements)
  have hstart := hT.start_le h.start.get h.place.get h.le
  obtain ⟨hspans, r, hr, hlo, hle⟩ := Arena.Spans.add (.suite statements)
    (fun c hc => h.spans c (hchildren c hc)) h.grown.size (Nat.le_refl _) hstart hstop
  have hstarts : (s.arena.add s₀.current.start stop (.suite statements)).2.StartsAt T
      s.arena.size i := ⟨r, _, hr, h.start.get, Nat.le_antisymm hle hlo⟩
  have hkind := Arena.kind?_add s.arena s₀.current.start stop (.suite statements) s.arena.size
  rw [if_pos rfl] at hkind
  refine ⟨h.le, h.start, h.place.same rfl rfl rfl, h.grown.trans hgrown, ?_, ?_, ?_, ?_⟩
  · intro root hroot
    exact List.mem_singleton.1 hroot ▸ hspans
  · rintro m (hm | hm)
    · exact h.within m hm
    · obtain ⟨e, rfl, hcloses⟩ := hclosed m hm
      have := hm.bounds
      have := hcloses.nests.le
      omega
  · rintro m (hm | hm)
    · obtain ⟨l, x, hopen, hx, hstarts⟩ := h.opened m hm
      exact ⟨l, x, hopen, (hgrown.kind (Arena.lt_size_of_kind? hx)).trans hx, hstarts.grow hgrown⟩
    · exact ⟨i, _, hm, hkind, hstarts⟩
  · intro x hnew hx
    rw [Arena.kind?_add] at hx
    split at hx
    · -- The new suite has all that has been read.
      subst x
      refine ⟨i, Nat.le_refl i, hline, hstarts, fun m hm => ?_⟩
      obtain ⟨e, rfl, hcloses⟩ := hclosed m hm
      obtain ⟨d, hd, -⟩ := kindAt_eq_some.1 hcloses.dedent
      refine ⟨.inr hm, e, d, _, Nat.lt_succ_self e, ⟨hcloses.nests.congr fun n hn _ => ?_,
        hcloses.dedent⟩, hd, h.place.get, hspans.mono (Nat.zero_le _) (Nat.zero_le _)
        (Nat.le_refl _), fun root hroot y _ _ hy _ _ _ _ => List.mem_singleton.1 hroot ▸ hy⟩
      refine ⟨.inl, fun hor => hor.resolve_right fun hn' => ?_⟩
      have := hm.unique hn'
      omega
    · refine h.suites_add (.suite statements) hchildren ⟨r, hr, hle⟩
        (fun x hnew hx => h.start_le hT hnew hx) ?_ hnew hx
      -- Behind the opening of an older suite there is none that starts here.
      intro l m n hl hm hopens hmn
      refine ⟨.inl, fun hor => hor.elim id fun hn => ?_⟩
      rwa [Nat.le_antisymm (hn.mono hm hl) hmn]

end Add

end Region

end TypeProbe
