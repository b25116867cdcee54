import TypeProbe.Proofs.Block.Region

/-!
# Parsers of statements and blocks

From where a statement or a block begins (`Origin`), a parser goes on with some nodes as roots and
has closed the blocks that it has opened (`Passage`). `Passages` says that a parser leads from some
roots to those that its result says; it is closed under the ways in which parsers are put together.
-/

open TypeProbe.Parser

namespace TypeProbe

/-- Where a parser of a statement or a block begins. -/
structure Origin where
  /-- The parser there. -/
  state : ParseState
  /-- Its place. -/
  place : Nat
  /-- What comes next, and each suite, starts at this offset at the earliest. -/
  first : Nat
  /-- So many tokens are left at most after the next one. -/
  room : Nat

/-- What a parser has done from its origin up to a place. -/
structure PassageTo (T : List Token) (B : Origin) (line : Bool) (roots : List NodeId)
    (s : ParseState) (k : Nat) (opens : Nat → Prop) : Prop where
  /-- What it has read. -/
  region : Region T B.state s B.place k roots opens
  /-- The blocks that it has opened are closed. -/
  nests : Nests T opens B.place k
  /-- It may have to be within a line. -/
  inLine : line = true → InLine T k
  /-- So many tokens are left. -/
  room : s.following.length ≤ B.room
  /-- What comes next starts late enough. -/
  first : B.first ≤ s.current.start
  /-- New suites start late enough. -/
  suites : ∀ x r, B.state.arena.size ≤ x → s.arena.kind? x = some .suite →
    s.arena.range? x = some r → B.first ≤ r.start

/-- What a parser has done from its origin. -/
def Passage (T : List Token) (B : Origin) (line : Bool) (roots : List NodeId) (s : ParseState) :
    Prop := ∃ k opens, PassageTo T B line roots s k opens

/-- A parser leads from some roots to those that its result says. -/
def Passages {α : Type} (T : List Token) (B : Origin) (line : Bool) (roots : List NodeId)
    (x : Parser α) (line' : Bool) (post : α → List NodeId) : Prop :=
  ∀ s, Passage T B line roots s → Passage T B line' (post (x.run s).1) (x.run s).2

/-- The origin of a parser that begins at a state. -/
def ParseState.origin (s : ParseState) (k room : Nat) : Origin := ⟨s, k, s.current.start, room⟩

namespace PassageTo

variable {length i j k : Nat} {T : List Token} {B : Origin} {line line' : Bool} {s s' : ParseState}
  {roots roots' : List NodeId} {opens opens' : Nat → Prop}

/-- A parser begins at its origin. -/
theorem begin (hs : s.At T k) (hline : line = true → InLine T k) {room : Nat}
    (hroom : s.following.length ≤ room) :
    PassageTo T (s.origin k room) line [] s k fun _ => False :=
  ⟨.refl hs, .done k, hline, hroom, Nat.le_refl _, fun _ _ hnew hkind _ =>
    absurd (Arena.lt_size_of_kind? hkind) (Nat.not_lt_of_le hnew)⟩

/-- A region may follow where blocks are closed in turn. -/
theorem append (hT : Tape length T) (h : PassageTo T B line roots s j opens)
    (hregion : Region T s s' j k roots' opens') (hnests : Nests T opens' j k)
    (hline : line' = true → InLine T k) :
    PassageTo T B line' (roots' ++ roots) s' k fun m => opens m ∨ opens' m where
  region := (h.region.append hT hregion).mono fun root hroot =>
    List.mem_append.2 (List.mem_append.1 hroot).symm
  nests := by
    refine (h.nests.congr fun m _ hm => ?_).trans (hnests.congr fun m hm _ => ?_)
    · refine ⟨.inl, fun hor => hor.resolve_right fun hm' => ?_⟩
      have := (hregion.within m hm').1
      omega
    · refine ⟨.inr, fun hor => hor.resolve_left fun hm' => ?_⟩
      have := (h.region.within m hm').2
      omega
  inLine := hline
  room := by
    have hlength := h.region.place.length_following
    have hlength' := hregion.place.length_following
    have hle := hregion.le
    have hroom := h.room
    omega
  first := Nat.le_trans h.first (hT.start_le h.region.place.get hregion.place.get hregion.le)
  suites x r hnew hkind hr := by
    rcases Nat.lt_or_ge x s.arena.size with hx | hx
    · rw [hregion.grown.kind hx] at hkind
      rw [hregion.grown.range x hx] at hr
      exact h.suites x r hnew hkind hr
    · exact Nat.le_trans h.first (hregion.start_le hT hx hkind r hr)

/-- The roots become the children of a node that starts before all suites. -/
theorem add (h : PassageTo T B line roots s k opens) {start stop : Nat} {form : Form}
    (hform : form.kind ≠ .suite) (hchildren : ∀ c ∈ form.children, c ∈ roots)
    (hlo : B.state.current.start ≤ start) (hstart : start ≤ B.first)
    (hstop : stop ≤ s.current.start) :
    PassageTo T B line [s.arena.size]
      { s with arena := (s.arena.add start stop form).2 } k opens where
  region := h.region.add hform hchildren hlo (Nat.le_trans hstart h.first) hstop
    fun x hnew hkind r hr => Nat.le_trans hstart (h.suites x r hnew hkind hr)
  nests := h.nests
  inLine := h.inLine
  room := h.room
  first := h.first
  suites x r hnew hkind hr := by
    have hgrown := Arena.Extends.add s.arena start stop form
    rw [Arena.kind?_add] at hkind
    split at hkind
    · exact absurd (Option.some.inj hkind) hform
    · have hx := Arena.lt_size_of_kind? hkind
      exact h.suites x r hnew hkind (hgrown.range x hx ▸ hr)

end PassageTo

namespace Passage

variable {length : Nat} {T : List Token} {B : Origin} {line line' : Bool} {s s' : ParseState}
  {roots roots' : List NodeId}

/-- Roots may be forgotten, and so may be that a line goes on. -/
theorem mono (h : Passage T B line roots s) (hroots : ∀ root ∈ roots', root ∈ roots)
    (hline : line' = true → line = true) : Passage T B line' roots' s := by
  obtain ⟨k, opens, h⟩ := h
  exact ⟨k, opens,
    { h with region := h.region.mono hroots, inLine := fun h' => h.inLine (hline h') }⟩

/-- What is read from a later origin is read from the earlier one as well. -/
theorem append (hT : Tape length T) (h : Passage T B line roots s)
    (hnext : ∀ k, s.At T k → (line = true → InLine T k) → s.following.length ≤ B.room →
      Passage T (s.origin k B.room) line' roots' s') : Passage T B line' (roots' ++ roots) s' := by
  obtain ⟨j, opens, h⟩ := h
  obtain ⟨k, opens', h'⟩ := hnext j h.region.place h.inLine h.room
  exact ⟨k, _, h.append hT h'.region h'.nests h'.inLine⟩

/-- What comes next may start earlier, and more tokens may be left. -/
theorem weaken (h : Passage T B line roots s) {first room : Nat} (hfirst : first ≤ B.first)
    (hroom : B.room ≤ room) : Passage T ⟨B.state, B.place, first, room⟩ line roots s := by
  obtain ⟨k, opens, h⟩ := h
  exact ⟨k, opens, h.region, h.nests, h.inLine, Nat.le_trans h.room hroom,
    Nat.le_trans hfirst h.first, fun x r hnew hkind hr =>
      Nat.le_trans hfirst (h.suites x r hnew hkind hr)⟩

/-- Where no suite has been read, what comes next starts at the next token. -/
theorem raise (h : Passage T B line roots s)
    (hnone : ∀ x, s.arena.kind? x = some .suite → B.state.arena.kind? x = some .suite) :
    Passage T ⟨B.state, B.place, s.current.start, B.room⟩ line roots s := by
  obtain ⟨k, opens, h⟩ := h
  exact ⟨k, opens, h.region, h.nests, h.inLine, h.room, Nat.le_refl _, fun x _ hnew hkind _ =>
    absurd (Arena.lt_size_of_kind? (hnone x hkind)) (Nat.not_lt_of_le hnew)⟩

/-- A token that closes no block may be taken. -/
theorem advanced (hT : Tape length T) (h : Passage T B line roots s)
    (hdedent : s.current.kind ≠ .dedent) (hline : line' = true → s.current.lexeme.IsWritten) :
    Passage T B line' roots (Parser.advanced s) := by
  suffices hnext : Passage T B line' ([] ++ roots) (Parser.advanced s) from hnext
  refine h.append hT fun k hs _ hroom => ?_
  have hbegin : PassageTo T (s.origin k B.room) false [] s k fun _ => False :=
    .begin hs (fun h => absurd h Bool.false_ne_true) hroom
  by_cases hkind : s.current.kind = .endOfStream
  · rw [ParseState.At.advanced_endOfStream hkind]
    refine ⟨k, _, { hbegin with inLine := fun h => ?_ }⟩
    have hwritten := hline h
    rw [Token.kind_eq_endOfStream.1 hkind] at hwritten
    exact hwritten.elim
  · obtain ⟨hs', harena⟩ := hs.advanced hT hkind
    refine ⟨k + 1, _, hbegin.append hT (.of_same hs hs' (Nat.le_succ k) harena)
      (.step (fun hk => ?_) (fun _ => id) (.done _)) fun h => ?_⟩
    · obtain ⟨t, ht, hkind⟩ := kindAt_eq_some.1 hk
      exact hdedent (Option.some.inj (ht.symm.trans hs.get) ▸ hkind)
    · exact hT.inLine_succ hs.get (Token.not_isLayout (hline h))

/-- A statement begins with its first token; what comes next starts behind that. -/
theorem past (hT : Tape length T) {k room : Nat} (hs : s.At T k)
    (hwritten : s.current.lexeme.IsWritten) (hroom : s.following.length ≤ room + 1) :
    Passage T ⟨s, k, s.current.stop, room⟩ true [] (Parser.advanced s) := by
  have hkind : s.current.kind ≠ .endOfStream := fun hkind => by
    rw [Token.kind_eq_endOfStream.1 hkind] at hwritten
    exact hwritten
  have hplain := Token.not_isLayout hwritten
  obtain ⟨hs', harena⟩ := hs.advanced hT hkind
  have hlength := hs.length_following
  have hlength' := hs'.length_following
  refine ⟨k + 1, _, .of_same hs hs' (Nat.le_succ k) harena, .of_plain (Nat.le_succ k) ?_,
    fun _ => hT.inLine_succ hs.get hplain, ?_, hT.stop_le hs.get hs'.get (Nat.lt_succ_self k),
    fun x r hnew hx => ?_⟩
  · intro m t hkm hmk ht hmark
    obtain rfl : m = k := Nat.le_antisymm (Nat.le_of_lt_succ hmk) hkm
    rw [← Option.some.inj (hs.get.symm.trans ht)] at hmark
    exact hplain hmark.isLayout
  · show (Parser.advanced s).following.length ≤ room
    omega
  · rw [harena] at hx
    exact absurd (Arena.lt_size_of_kind? hx) (Nat.not_lt_of_le hnew)

end Passage

/-! ## Parsers put together -/

namespace Passages

variable {α β : Type} {length w : Nat} {T : List Token} {B : Origin} {line line' line'' : Bool}
  {roots roots' : List NodeId} {x : Parser α} {f : α → Parser β} {post : α → List NodeId}
  {post' : β → List NodeId}

/-- Nothing may be read. -/
theorem ret {a : α} (hroots : ∀ root ∈ post a, root ∈ roots) (hline : line' = true → line = true) :
    Passages T B line roots (pure a) line' post := fun _ h => h.mono hroots hline

/-- One parser may come after another one. -/
theorem bind (hx : Passages T B line roots x line' post)
    (hf : ∀ a, Passages T B line' (post a) (f a) line'' post') :
    Passages T B line roots (x >>= f) line'' post' := fun s h => hf _ _ (hx s h)

/-- Either of two parsers may go on. -/
theorem ite {c : Prop} [Decidable c] {y : Parser α} (hx : Passages T B line roots x line' post)
    (hy : Passages T B line roots y line' post) :
    Passages T B line roots (if c then x else y) line' post := by
  split
  · exact hx
  · exact hy

/-- A result may be changed. -/
theorem map {g : α → β} (hx : Passages T B line roots x line' fun a => post' (g a)) :
    Passages T B line roots (g <$> x) line' post' := hx

/-- The state may be looked at. -/
theorem read {g : ParseState → α} (hx : ∀ s, x.run s = (g s, s)) :
    Passages T B line roots x line fun _ => roots := by
  intro s h
  rw [hx]
  exact h

/-- What is read from its own origin adds its roots. -/
theorem own (hT : Tape length T) (post : α → List NodeId)
    (hx : ∀ s k, s.At T k → (line = true → InLine T k) → s.following.length ≤ B.room →
      Passage T (s.origin k B.room) line' (post (x.run s).1) (x.run s).2) :
    Passages T B line roots x line' fun a => post a ++ roots :=
  fun s h => h.append hT fun k => hx s k

/-- A parser that stays on its line goes on within it. -/
theorem run_line {inside : Bool} {g : Nat → α → α} {s : ParseState} {k n : Nat}
    (hT : Tape length T) (hx : LineParser length w inside x g post) (hw : 4 * n + 3 < w)
    (hs : s.At T k) (hline : InLine T k) (hroom : s.following.length ≤ n)
    (hinside : inside = true → endsLine s.current.kind = false) :
    Passage T (s.origin k n) true (post (x.run s).1) (x.run s).2 := by
  obtain ⟨hfresh, hsuites, k', hle, hs', hline', hplain⟩ := hx.run hT hs (by omega) hline hinside
  have hbegin : PassageTo T (s.origin k n) true [] s k fun _ => False :=
    .begin hs (fun _ => hline) hroom
  have hend : PassageTo T (s.origin k n) true (post (x.run s).1 ++ []) (x.run s).2 k' _ :=
    hbegin.append hT (.of_fresh hs hs' hle hfresh hsuites)
      (.of_plain hle fun m t hkm hmk ht hmark => hplain m t hkm hmk ht hmark.isLayout)
      fun _ => hline'
  rw [List.append_nil] at hend
  exact ⟨k', _, hend⟩

/-- A parser that stays on its line may be used within a line. -/
theorem within {g : Nat → α → α} (hT : Tape length T) (hx : LineParser length w false x g post)
    (hw : 4 * B.room + 3 < w) : Passages T B true roots x true fun a => post a ++ roots :=
  own hT post fun _ _ hs hline hroom => run_line hT hx hw hs (hline rfl) hroom fun h =>
    absurd h Bool.false_ne_true

/-! ## Nodes -/

section Nodes

variable {start stop : Nat} {form : Form}

/-- The roots may become the children of a node that is no suite. -/
theorem addNode (hform : form.kind ≠ .suite) (hchildren : ∀ c ∈ form.children, c ∈ roots)
    (hlo : B.state.current.start ≤ start) (hstart : start ≤ B.first) (hstop : stop ≤ B.first) :
    Passages T B line roots (Parser.addNode start stop form) line fun id => [id] := by
  rintro s ⟨k, opens, h⟩
  exact ⟨k, opens, h.add hform hchildren hlo hstart (Nat.le_trans hstop h.first)⟩

/-- The roots may become the children of a node that reaches to the last token. -/
theorem node (hform : form.kind ≠ .suite) (hchildren : ∀ c ∈ form.children, c ∈ roots)
    (hlo : B.state.current.start ≤ start) (hstart : start ≤ B.first) :
    Passages T B line roots (Parser.node start form) line fun id => [id] := by
  rintro s ⟨k, opens, h⟩
  exact ⟨k, opens, h.add hform hchildren hlo hstart h.region.place.previous⟩

end Nodes

/-! ## Repetition -/

/-- A step that may build a node may be repeated. -/
theorem manyNodes {step : Parser (Option NodeId)}
    (hstep : ∀ roots, Passages T B line roots step line fun id => id.toList ++ roots) :
    Passages T B line roots (Parser.many step) line fun ids => ids ++ roots := by
  have hroots : ∀ (id : NodeId) ids roots, ∀ root ∈ id :: ids ++ roots,
      root ∈ ids ++ id :: roots := by
    intro id ids roots root hroot
    simp only [List.cons_append, List.mem_cons, List.mem_append] at hroot ⊢
    tauto
  have hmany : ∀ fuel roots, Passages T B line roots (manyAtMost step fuel) line
      fun ids => ids ++ roots := by
    intro fuel
    induction fuel with
    | zero => exact fun roots => ret (fun _ => id) id
    | succ fuel ih =>
      refine fun roots => (hstep roots).bind fun id => ?_
      cases id with
      | none => exact ret (fun _ => id) id
      | some id => exact (ih (id :: roots)).bind fun ids => ret (hroots id ids roots) fun h => h
  refine (hstep roots).bind fun id => ?_
  cases id with
  | none => exact ret (fun _ => id) id
  | some id =>
    refine (read (g := fun s => s.following.length + 1) fun _ => rfl).bind fun fuel => ?_
    exact (hmany fuel (id :: roots)).bind fun ids => ret (hroots id ids roots) fun h => h

end Passages

end TypeProbe
