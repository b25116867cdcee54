import TypeProbe.Proofs.Tree.Ownership

/-!
# Where the nodes of a growing arena stand

The nodes on a parser's stack stand in the text one after the other, with the offsets on the stack
between them (`Laid`), and the children of a node stand so within its range (`Nested`). A new node
whose start is not beyond its children takes their place on the stack (`Laid.add`), and a node on
the stack may be widened over the text up to what stands around it (`Laid.widened`).
-/

namespace TypeProbe

/-- The nodes stand in the given order, apart from each other, between two offsets. -/
def Arranged (a : Arena) : (lo : Nat) → List NodeId → (hi : Nat) → Prop
  | lo, [], hi => lo ≤ hi
  | lo, id :: ids, hi => ∃ r, a.range? id = some r ∧ lo ≤ r.start ∧ Arranged a r.stop ids hi

/-- The items of a stack stand below an offset, each below the one put on it later. -/
def Laid (a : Arena) : List Item → (hi : Nat) → Prop
  | [], _ => True
  | .mark n :: L, hi => n ≤ hi ∧ Laid a L n
  | .node id :: L, hi => ∃ r, a.range? id = some r ∧ r.stop ≤ hi ∧ Laid a L r.start
  | .decorator id :: L, hi => ∃ r, a.range? id = some r ∧ r.stop ≤ hi ∧ Laid a L r.start

/-- A stack with items of the given nodes put on it one after the other. -/
def put (item : NodeId → Item) (ids : List NodeId) (L : List Item) : List Item :=
  ids.foldl (fun L id => item id :: L) L

/-- A stack with nodes put on it one after the other. -/
abbrev pushed (ids : List NodeId) (L : List Item) : List Item := put .node ids L

/-- A stack with decorators put on it one after the other. -/
abbrev decorated (ids : List NodeId) (L : List Item) : List Item := put .decorator ids L

@[simp] theorem put_nil (item : NodeId → Item) (L : List Item) : put item [] L = L := rfl

@[simp] theorem put_cons (item : NodeId → Item) (id : NodeId) (ids : List NodeId) (L : List Item) :
    put item (id :: ids) L = put item ids (item id :: L) := rfl

@[simp] theorem put_append (item : NodeId → Item) (ids others : List NodeId) (L : List Item) :
    put item (ids ++ others) L = put item others (put item ids L) := List.foldl_append

/-- What is put on a stack stands on it in reverse. -/
theorem put_eq (item : NodeId → Item) (ids : List NodeId) (L : List Item) :
    put item ids L = (ids.map item).reverse ++ L := by
  induction ids generalizing L with
  | nil => rfl
  | cons id ids ih =>
    rw [put, List.foldl_cons, ← put, ih, List.map_cons, List.reverse_cons, List.append_assoc]
    rfl

/-- The nodes put on a stack are held. -/
theorem held_put {item : NodeId → Item} (hitem : ∀ id, (item id).id? = some id)
    (ids : List NodeId) (L : List Item) : held (put item ids L) = ids.reverse ++ held L := by
  induction ids generalizing L with
  | nil => rfl
  | cons id ids ih =>
    rw [put, List.foldl_cons, ← put, ih, held, List.filterMap_cons_some (hitem id), ← held,
      List.reverse_cons, List.append_assoc]
    rfl

/-- All nodes stand below an offset, and each holds its children, which are arranged in it. -/
def Nested (a : Arena) (hi : Nat) : Prop :=
  ∀ p r, a.range? p = some r → r.stop ≤ hi ∧ Arranged a r.start (a.children p) r.stop

namespace TextRange

/-- A range starts before it stops. -/
theorem start_le_stop (r : TextRange) : r.start ≤ r.stop := Nat.le_add_right _ _

/-- A hull of two ranges reaches from the first start to the last stop. -/
theorem stop_hull (r s : TextRange) : (hull r s).stop = max r.stop s.stop := by
  have := r.start_le_stop
  rw [hull, stop_ofBounds]
  omega

/-- A hull of ranges starts where one of them does at the earliest, and holds each of them. -/
theorem foldl_hull (ranges : List TextRange) (r : TextRange) {lo : Nat} (hr : lo ≤ r.start)
    (hlo : ∀ s ∈ ranges, lo ≤ s.start) {hi : Nat} (hr' : r.stop ≤ hi)
    (hhi : ∀ s ∈ ranges, s.stop ≤ hi) :
    (lo ≤ (ranges.foldl hull r).start ∧ (ranges.foldl hull r).stop ≤ hi) ∧
      ∀ s ∈ r :: ranges, (ranges.foldl hull r).start ≤ s.start ∧
        s.stop ≤ (ranges.foldl hull r).stop := by
  induction ranges generalizing r with
  | nil =>
    refine ⟨⟨hr, hr'⟩, fun s hs => ?_⟩
    rw [List.mem_singleton.1 hs]
    exact ⟨Nat.le_refl _, Nat.le_refl _⟩
  | cons t ranges ih =>
    have ht := hlo t List.mem_cons_self
    have ht' := hhi t List.mem_cons_self
    have hstart : (hull r t).start = min r.start t.start := rfl
    have hstop := stop_hull r t
    obtain ⟨hbounds, hall⟩ := ih (hull r t) (by omega)
      (fun s hs => hlo s (List.mem_cons_of_mem _ hs)) (by omega)
      (fun s hs => hhi s (List.mem_cons_of_mem _ hs))
    have hhull := hall _ List.mem_cons_self
    refine ⟨hbounds, fun s hs => ?_⟩
    rw [List.foldl_cons]
    rcases List.mem_cons.1 hs with rfl | hs
    · omega
    · rcases List.mem_cons.1 hs with rfl | hs
      · omega
      · exact hall s (List.mem_cons_of_mem _ hs)

end TextRange

namespace Arranged

variable {a b : Arena} {lo hi : Nat} {ids : List NodeId}

/-- The bounds are in order. -/
theorem le (h : Arranged a lo ids hi) : lo ≤ hi := by
  induction ids generalizing lo with
  | nil => exact h
  | cons id ids ih =>
    obtain ⟨r, -, hlo, hrest⟩ := h
    have := ih hrest
    have := r.start_le_stop
    omega

/-- The nodes exist and stand between the bounds. -/
theorem bounds (h : Arranged a lo ids hi) {id : NodeId} (hid : id ∈ ids) :
    ∃ r, a.range? id = some r ∧ lo ≤ r.start ∧ r.stop ≤ hi := by
  induction ids generalizing lo with
  | nil => cases hid
  | cons i ids ih =>
    obtain ⟨r, hr, hlo, hrest⟩ := h
    rcases List.mem_cons.1 hid with rfl | hid
    · exact ⟨r, hr, hlo, hrest.le⟩
    · obtain ⟨s, hs, hlo', hhi⟩ := ih hrest hid
      have := r.start_le_stop
      exact ⟨s, hs, by omega, hhi⟩

/-- Bounds that the nodes respect may take the place of others. -/
theorem rebound (h : Arranged a lo ids hi) {lo' hi' : Nat} (hle : lo' ≤ hi')
    (hlo : ∀ id ∈ ids, ∀ r, a.range? id = some r → lo' ≤ r.start)
    (hhi : ∀ id ∈ ids, ∀ r, a.range? id = some r → r.stop ≤ hi') : Arranged a lo' ids hi' := by
  induction ids generalizing lo lo' with
  | nil => exact hle
  | cons id ids ih =>
    obtain ⟨r, hr, hstart, hrest⟩ := h
    refine ⟨r, hr, hlo id List.mem_cons_self r hr, ?_⟩
    refine ih hrest (hhi id List.mem_cons_self r hr) (fun i hi s hs => ?_)
      fun i hi => hhi i (List.mem_cons_of_mem _ hi)
    obtain ⟨t, ht, hle, -⟩ := hrest.bounds hi
    rwa [Option.some.inj (hs.symm.trans ht)]

/-- Wider bounds may take the place of others. -/
theorem mono (h : Arranged a lo ids hi) {lo' hi' : Nat} (hlo : lo' ≤ lo) (hhi : hi ≤ hi') :
    Arranged a lo' ids hi' := by
  have hle := h.le
  refine h.rebound (by omega) (fun id hid r hr => ?_) (fun id hid r hr => ?_)
  all_goals
    obtain ⟨s, hs, hstart, hstop⟩ := h.bounds hid
    obtain rfl := Option.some.inj (hs.symm.trans hr)
    omega

/-- Only the ranges of the nodes matter. -/
theorem congr (h : Arranged a lo ids hi) (hab : ∀ id ∈ ids, b.range? id = a.range? id) :
    Arranged b lo ids hi := by
  induction ids generalizing lo with
  | nil => exact h
  | cons id ids ih =>
    obtain ⟨r, hr, hlo, hrest⟩ := h
    exact ⟨r, by rw [hab id List.mem_cons_self, hr], hlo,
      ih hrest fun i hi => hab i (List.mem_cons_of_mem _ hi)⟩

/-- Nodes may be arranged after others. -/
theorem append {mid : Nat} {others : List NodeId} (h : Arranged a lo ids mid)
    (hothers : Arranged a mid others hi) : Arranged a lo (ids ++ others) hi := by
  induction ids generalizing lo with
  | nil => exact hothers.mono h (Nat.le_refl hi)
  | cons id ids ih =>
    obtain ⟨r, hr, hlo, hrest⟩ := h
    exact ⟨r, hr, hlo, ih hrest⟩

/-- Of two nodes the first stops before the second starts. -/
theorem pairwise (h : Arranged a lo ids hi) :
    ids.Pairwise fun i j =>
      ∀ r s, a.range? i = some r → a.range? j = some s → r.stop ≤ s.start := by
  induction ids generalizing lo with
  | nil => exact .nil
  | cons id ids ih =>
    obtain ⟨r, hr, hlo, hrest⟩ := h
    refine .cons (fun j hj t s ht hs => ?_) (ih hrest)
    obtain ⟨u, hu, hle, -⟩ := hrest.bounds hj
    rw [hr] at ht
    rw [hs] at hu
    rwa [← Option.some.inj ht, Option.some.inj hu]

end Arranged

namespace Laid

variable {a b : Arena} {S L : List Item} {lo hi : Nat}

/-- A higher offset may take the place of a lower one. -/
theorem mono (h : Laid a L lo) (hle : lo ≤ hi) : Laid a L hi := by
  cases L with
  | nil => trivial
  | cons item L =>
    cases item with
    | mark n => exact ⟨Nat.le_trans h.1 hle, h.2⟩
    | node id =>
      obtain ⟨r, hr, hstop, hrest⟩ := h
      exact ⟨r, hr, Nat.le_trans hstop hle, hrest⟩
    | decorator id =>
      obtain ⟨r, hr, hstop, hrest⟩ := h
      exact ⟨r, hr, Nat.le_trans hstop hle, hrest⟩

/-- What stands below the last item stands below the offset. -/
theorem tail {item : Item} (h : Laid a (item :: L) hi) : Laid a L hi := by
  cases item with
  | mark n => exact h.2.mono h.1
  | node id =>
    obtain ⟨r, -, hstop, hrest⟩ := h
    exact hrest.mono (Nat.le_trans r.start_le_stop hstop)
  | decorator id =>
    obtain ⟨r, -, hstop, hrest⟩ := h
    exact hrest.mono (Nat.le_trans r.start_le_stop hstop)

/-- What stands below some items stands below the offset. -/
theorem below (S : List Item) (h : Laid a (S ++ L) hi) : Laid a L hi := by
  induction S with
  | nil => exact h
  | cons item S ih => exact ih h.tail

/-- An offset on the stack is below the offset above it. -/
theorem mark_le (h : Laid a L hi) {n : Nat} (hn : .mark n ∈ L) : n ≤ hi := by
  induction L generalizing hi with
  | nil => cases hn
  | cons item L ih =>
    rcases List.mem_cons.1 hn with rfl | hn
    · exact h.1
    · exact ih h.tail hn

/-- Only the ranges of the nodes on the stack matter. -/
theorem congr (h : Laid a L hi) (hab : ∀ id ∈ held L, b.range? id = a.range? id) :
    Laid b L hi := by
  induction L generalizing hi with
  | nil => trivial
  | cons item L ih =>
    cases item with
    | mark n => exact ⟨h.1, ih h.2 hab⟩
    | node id =>
      obtain ⟨r, hr, hstop, hrest⟩ := h
      exact ⟨r, by rw [hab id List.mem_cons_self, hr], hstop,
        ih hrest fun i hi => hab i (List.mem_cons_of_mem _ hi)⟩
    | decorator id =>
      obtain ⟨r, hr, hstop, hrest⟩ := h
      exact ⟨r, by rw [hab id List.mem_cons_self, hr], hstop,
        ih hrest fun i hi => hab i (List.mem_cons_of_mem _ hi)⟩

/-- Items may be left out below others, if what stands below them does without them. -/
theorem replace {K : List Item} (h : Laid a (S ++ L) hi)
    (hLK : ∀ n, Laid a L n → Laid a K n) : Laid a (S ++ K) hi := by
  induction S generalizing hi with
  | nil => exact hLK hi h
  | cons item S ih =>
    cases item with
    | mark n => exact ⟨h.1, ih h.2⟩
    | node id =>
      obtain ⟨r, hr, hstop, hrest⟩ := h
      exact ⟨r, hr, hstop, ih hrest⟩
    | decorator id =>
      obtain ⟨r, hr, hstop, hrest⟩ := h
      exact ⟨r, hr, hstop, ih hrest⟩

/-- Nodes put on a stack one after the other are arranged above what was there. -/
theorem of_put (item : NodeId → Item)
    (hitem : ∀ id L hi, Laid a (item id :: L) hi →
      ∃ r, a.range? id = some r ∧ r.stop ≤ hi ∧ Laid a L r.start) {ids : List NodeId}
    (h : Laid a (put item ids L) hi) :
    ∃ lo, Laid a L lo ∧ Arranged a lo ids hi := by
  induction ids generalizing L with
  | nil => exact ⟨hi, h, Nat.le_refl hi⟩
  | cons id ids ih =>
    obtain ⟨lo, hlaid, harranged⟩ := ih h
    obtain ⟨r, hr, hstop, hrest⟩ := hitem id L lo hlaid
    exact ⟨r.start, hrest, r, hr, Nat.le_refl _, harranged.mono hstop (Nat.le_refl hi)⟩

/-- Nodes and decorators put on a stack are arranged above what was there. -/
theorem of_pushed {decorators ids : List NodeId}
    (h : Laid a (pushed ids (decorated decorators L)) hi) :
    ∃ lo, Laid a L lo ∧ Arranged a lo (decorators ++ ids) hi := by
  obtain ⟨mid, hlaid, hids⟩ := of_put .node (fun _ _ _ h => h) h
  obtain ⟨lo, hlaid, hdecorators⟩ := of_put .decorator (fun _ _ _ h => h) hlaid
  exact ⟨lo, hlaid, hdecorators.append hids⟩

end Laid

/-! ## A new node -/

section Add

variable {a : Arena} {L : List Item} {start stop hi : Nat} {form : Form}

/-- The range of a new node holds its children, and reaches no further than its bounds and they
do. -/
theorem rangeOver_bounds {least lo : Nat} (hchildren : Arranged a lo form.children hi)
    (hlo : least ≤ lo) (hleast : least ≤ start) (hstart : start ≤ hi) (hstop : stop ≤ hi) :
    let r := a.rangeOver (TextRange.ofBounds start (max stop start)) form.children
    least ≤ r.start ∧ r.stop ≤ hi ∧ Arranged a r.start form.children r.stop := by
  intro r
  have hranges : ∀ s ∈ form.children.filterMap a.range?, lo ≤ s.start ∧ s.stop ≤ hi := by
    intro s hs
    obtain ⟨id, hid, hr⟩ := List.mem_filterMap.1 hs
    obtain ⟨t, ht, hbounds⟩ := hchildren.bounds hid
    rwa [Option.some.inj (hr.symm.trans ht)]
  have hbase := TextRange.stop_ofBounds start (max stop start)
  obtain ⟨⟨hlow, hhigh⟩, hall⟩ := TextRange.foldl_hull (form.children.filterMap a.range?)
    (TextRange.ofBounds start (max stop start)) hleast
    (fun s hs => Nat.le_trans hlo (hranges s hs).1) (by omega) (fun s hs => (hranges s hs).2)
  have hchild : ∀ id ∈ form.children, ∀ s, a.range? id = some s → r.start ≤ s.start ∧
      s.stop ≤ r.stop := fun id hid s hs =>
    hall s (List.mem_cons_of_mem _ (List.mem_filterMap.2 ⟨id, hid, hs⟩))
  refine ⟨hlow, hhigh, ?_⟩
  exact hchildren.rebound r.start_le_stop (fun id hid s hs => (hchild id hid s hs).1)
    fun id hid s hs => (hchild id hid s hs).2

/-- A node with a range is not the next new one. -/
theorem Arena.ne_size_of_range? {id : NodeId} {r : TextRange} (h : a.range? id = some r) :
    id ≠ a.size := by
  rintro rfl
  rw [Arena.range?, Arena.get?_eq_none_iff.2 (Nat.le_refl _)] at h
  cases h

/-- A new node holds its children, and what was nested stays so. -/
theorem Nested.add (h : Nested a hi) {lo : Nat} (hchildren : Arranged a lo form.children hi)
    (hstart : start ≤ hi) (hstop : stop ≤ hi) : Nested (a.add start stop form).2 hi := by
  intro p r hp
  have hsame : ∀ {lo hi ids}, Arranged a lo ids hi →
      Arranged (a.add start stop form).2 lo ids hi := fun harranged => by
    refine harranged.congr fun id hid => ?_
    obtain ⟨s, hs, -⟩ := harranged.bounds hid
    rw [Arena.range?_add, if_neg (Arena.ne_size_of_range? hs)]
  rw [Arena.range?_add] at hp
  rw [Arena.children_add]
  split at hp
  · obtain ⟨-, hhi, harranged⟩ :=
      rangeOver_bounds hchildren (Nat.zero_le lo) (Nat.zero_le start) hstart hstop
    rw [if_pos ‹_›, ← Option.some.inj hp]
    exact ⟨hhi, hsame harranged⟩
  · rw [if_neg ‹_›]
    exact ⟨(h p r hp).1, hsame (h p r hp).2⟩

/-- A new node may stand on the stack for its children, above what is below them and its start. -/
theorem Laid.add {least lo : Nat} (hchildren : Arranged a lo form.children hi) (hlo : least ≤ lo)
    (hleast : least ≤ start) (hstart : start ≤ hi) (hstop : stop ≤ hi) (h : Laid a L least)
    (hheld : ∀ id ∈ held L, id < a.size) :
    Laid (a.add start stop form).2 (.ofForm form a.size :: L) hi := by
  obtain ⟨hlow, hhi, -⟩ := rangeOver_bounds hchildren hlo hleast hstart hstop
  have hrest : Laid (a.add start stop form).2 L least := h.congr fun id hid => by
    rw [Arena.range?_add, if_neg (Nat.ne_of_lt (hheld id hid))]
  have hrange := Arena.range?_add a start stop form a.size
  rw [if_pos rfl] at hrange
  unfold Item.ofForm
  split
  · exact ⟨_, hrange, hhi, hrest.mono hlow⟩
  · exact ⟨_, hrange, hhi, hrest.mono hlow⟩

end Add

/-! ## Parentheses around a node -/

section Widened

variable {a : Arena} {L : List Item} {id : NodeId} {start stop hi : Nat}

/-- A node that no other holds may be widened. -/
theorem Nested.widened (h : Nested a hi) (hfree : ∀ p, id ∉ a.children p) (hstop : stop ≤ hi) :
    Nested (a.widened id start stop) hi := by
  intro p r hp
  have hsame : ∀ {lo hi}, Arranged a lo (a.children p) hi →
      Arranged (a.widened id start stop) lo (a.children p) hi := fun harranged => by
    refine harranged.congr fun i hi => ?_
    rw [Arena.range?_widened, if_neg fun (hid : id = i) => hfree p (hid ▸ hi)]
  rw [Arena.range?_widened] at hp
  rw [Arena.children_widened]
  split at hp
  · obtain ⟨s, hs, rfl⟩ := Option.map_eq_some_iff.1 hp
    obtain ⟨hhi, harranged⟩ := h p s hs
    have hle := s.start_le_stop
    rw [TextRange.stop_ofBounds, TextRange.start_ofBounds]
    exact ⟨by omega, hsame (harranged.mono (by omega) (by omega))⟩
  · exact ⟨(h p r hp).1, hsame (h p r hp).2⟩

/-- The last node on the stack may be widened up to the offsets around it. -/
theorem Laid.widened (h : Laid a (.node id :: .mark start :: L) hi) (hid : id ∉ held L)
    (hstop : stop ≤ hi) : Laid (a.widened id start stop) (.node id :: L) hi := by
  obtain ⟨r, hr, hhi, hstart, hrest⟩ := h
  have hle := r.start_le_stop
  refine ⟨TextRange.ofBounds (min r.start start) (max r.stop stop), ?_, ?_, ?_⟩
  · rw [Arena.range?_widened, if_pos rfl, hr]
    rfl
  · rw [TextRange.stop_ofBounds]
    omega
  · rw [TextRange.start_ofBounds, Nat.min_eq_right hstart]
    refine hrest.congr fun i hi => ?_
    rw [Arena.range?_widened, if_neg fun (heq : id = i) => hid (heq ▸ hi)]

end Widened

end TypeProbe
