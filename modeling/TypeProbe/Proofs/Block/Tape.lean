import TypeProbe.Proofs.Token.BlockMarks
import TypeProbe.Proofs.Tree.LineStatements

/-!
# Where a parser is among the tokens of a text

Blocks are told apart by the places of tokens in the list of all tokens of a text, its `Tape`. A
parser is at a place (`ParseState.At`) if the tokens from there on are those that it has before it.
What is read within a line goes on to a later place and adds no block (`Course.along`).
-/

open TypeProbe.Parser

namespace TypeProbe

/-- What is known of the tokens of a text of the given number of bytes. -/
structure Tape (length : Nat) (T : List Token) : Prop where
  /-- Tokens do not overlap. -/
  ordered : T.Pairwise fun t u => t.stop ≤ u.start
  /-- The last token ends the stream, and no other does. -/
  ends : ∃ front : List Token, (∀ t ∈ front, t.lexeme ≠ .endOfStream) ∧
    T = front ++ [⟨⟨length, 0⟩, .endOfStream⟩]
  /-- Blocks are opened and closed where lines start. -/
  stands : EachAfter Token.Stands T
  /-- All blocks that are opened are closed. -/
  closed : openWidths T = []

/-- The tokens of a text. -/
theorem tape_ofText (text : List Char) : Tape (byteLength text) (Tokens.ofText text) := by
  obtain ⟨hends, hclosed, -⟩ := Tokens.ofText_balanced text
  exact ⟨(Tokens.tiles_ofText text).1.pairwise, hends, Tokens.ofText_stands text, hclosed⟩

/-- The kind of the token at a place. -/
def kindAt (T : List Token) (k : Nat) : Option TokenKind := T[k]?.map Token.kind

/-- The kind of a token at a place. -/
theorem kindAt_eq_some {T : List Token} {k : Nat} {kind : TokenKind} :
    kindAt T k = some kind ↔ ∃ t, T[k]? = some t ∧ t.kind = kind := Option.map_eq_some_iff

/-- No block is opened or closed by the token at a place. -/
def InLine (T : List Token) (k : Nat) : Prop := ∀ t, T[k]? = some t → ¬ t.IsBlockMark

namespace Tape

variable {length i j k : Nat} {T : List Token} {t u : Token}

/-- Of two tokens at different places the first stops before the second starts. -/
theorem stop_le (hT : Tape length T) (ht : T[i]? = some t) (hu : T[j]? = some u) (hij : i < j) :
    t.stop ≤ u.start := by
  obtain ⟨hi, rfl⟩ := List.getElem?_eq_some_iff.1 ht
  obtain ⟨hj, rfl⟩ := List.getElem?_eq_some_iff.1 hu
  exact List.pairwise_iff_getElem.1 hT.ordered i j hi hj hij

/-- Later tokens start later, or at the same offset. -/
theorem start_le (hT : Tape length T) (ht : T[i]? = some t) (hu : T[j]? = some u) (hij : i ≤ j) :
    t.start ≤ u.start := by
  rcases Nat.eq_or_lt_of_le hij with rfl | hlt
  · exact Nat.le_of_eq (congrArg Token.start (Option.some.inj (ht.symm.trans hu)))
  · exact Nat.le_trans t.range.start_le_stop (hT.stop_le ht hu hlt)

/-- A token stands after those at the places before it. -/
theorem stands_at (hT : Tape length T) (ht : T[k]? = some t) : t.Stands (T.take k) := by
  obtain ⟨hk, rfl⟩ := List.getElem?_eq_some_iff.1 ht
  refine hT.stands _ _ (T.drop (k + 1)) ?_
  rw [List.getElem_cons_drop, List.take_append_drop]

/-- A token is among those before a later place. -/
theorem mem_take (ht : T[i]? = some t) (hik : i < k) : t ∈ T.take k :=
  List.mem_of_getElem? ((List.getElem?_take_of_lt hik).trans ht)

/-- No block is opened or closed after a token within a line. -/
theorem inLine_succ (hT : Tape length T) (ht : T[k]? = some t) (hlayout : ¬ t.IsLayout) :
    InLine T (k + 1) := by
  intro u hu hmark
  refine hlayout ((hT.stands_at hu).mark hmark t ?_)
  rw [List.take_add_one, ht, Option.toList_some, List.getLast?_concat]

/-- Only the token at the last place ends the stream. -/
theorem lt_of_ne_endOfStream (hT : Tape length T) (ht : T[k]? = some t)
    (hkind : t.kind ≠ .endOfStream) : k + 1 < T.length := by
  obtain ⟨front, -, hends⟩ := hT.ends
  obtain ⟨hk, rfl⟩ := List.getElem?_eq_some_iff.1 ht
  refine Nat.lt_of_le_of_ne hk fun hlast => hkind ?_
  have hlength : T.length = front.length + 1 := by rw [hends]; simp
  have hplace : k = front.length := by omega
  subst hplace
  have hget : T[front.length]? = some ⟨⟨length, 0⟩, .endOfStream⟩ := by
    rw [hends, List.getElem?_append_right (Nat.le_refl _), Nat.sub_self]
    rfl
  rw [List.getElem?_eq_getElem hk] at hget
  rw [Option.some.inj hget]
  rfl

/-- The token at a place before the last does not end the stream. -/
theorem ne_endOfStream (hT : Tape length T) (ht : T[k]? = some t) (hk : k + 1 < T.length) :
    t.kind ≠ .endOfStream := by
  obtain ⟨front, hfront, hends⟩ := hT.ends
  have hlength : T.length = front.length + 1 := by rw [hends]; simp
  rw [hends, List.getElem?_append_left (by omega)] at ht
  exact fun hkind => hfront t (List.mem_of_getElem? ht) (Token.kind_eq_endOfStream.1 hkind)

end Tape

/-- What is written in the text does not end a line. -/
theorem Token.endsLine_of_isWritten {t : Token} (h : t.lexeme.IsWritten) :
    endsLine t.kind = false := by
  obtain ⟨range, x⟩ := t
  cases x with
  | newLine => exact h.elim
  | indent => exact h.elim
  | dedent => exact h.elim
  | endOfStream => exact h.elim
  | _ => rfl

/-- A token that is no layout token, nor the end of the stream, is written in the text. -/
theorem Token.isWritten_of_not_isLayout {t : Token} (h : ¬ t.IsLayout)
    (hend : t.kind ≠ .endOfStream) : t.lexeme.IsWritten := by
  obtain ⟨range, x⟩ := t
  cases x with
  | newLine => exact absurd (.inl rfl) h
  | indent => exact absurd (.inr (.inl rfl)) h
  | dedent => exact absurd (.inr (.inr rfl)) h
  | endOfStream => exact absurd rfl hend
  | _ => trivial

/-- Keywords are written in the text. -/
theorem Token.isWritten_of_keyword? {t : Token} {keyword : Keyword}
    (h : t.keyword? = some keyword) : t.lexeme.IsWritten := by
  obtain ⟨range, x⟩ := t
  cases x with
  | keyword => trivial
  | _ => cases h

/-- Operators are written in the text. -/
theorem Token.isWritten_of_operator? {t : Token} {op : Operator} (h : t.operator? = some op) :
    t.lexeme.IsWritten := by
  obtain ⟨range, x⟩ := t
  cases x with
  | operator => trivial
  | _ => cases h

/-! ## Places of a parser -/

/-- A parser is at a place: the tokens from there on are before it. -/
structure ParseState.At (T : List Token) (k : Nat) (s : ParseState) : Prop where
  /-- The tokens before it. -/
  tokens : s.current :: s.following = T.drop k
  /-- The last token taken stops before the next one starts. -/
  previous : s.previousStop ≤ s.current.start

namespace ParseState.At

variable {length k : Nat} {T : List Token} {s s' : ParseState}

/-- The next token is the one at the place. -/
theorem get (h : s.At T k) : T[k]? = some s.current := by
  rw [← List.head?_drop, ← h.tokens, List.head?_cons]

/-- The tokens after it are at later places. -/
theorem following (h : s.At T k) : s.following = T.drop (k + 1) := by
  rw [← List.tail_drop, ← h.tokens, List.tail_cons]

/-- The next token is of the kind at the place. -/
theorem kindAt (h : s.At T k) : kindAt T k = some s.current.kind := congrArg _ h.get

/-- What is written in the text opens and closes no block. -/
theorem inLine (h : s.At T k) (hwritten : s.current.lexeme.IsWritten) : InLine T k := by
  intro t ht hmark
  rw [← Option.some.inj (h.get.symm.trans ht)] at hmark
  exact Token.not_isLayout hwritten hmark.isLayout

/-- So many tokens are left. -/
theorem length_following (h : s.At T k) : s.following.length + 1 + k = T.length := by
  have hlength := congrArg List.length h.tokens
  obtain ⟨hk, -⟩ := List.getElem?_eq_some_iff.1 h.get
  rw [List.length_cons, List.length_drop] at hlength
  omega

/-- What is no token may change. -/
theorem same (h : s.At T k) (hcurrent : s'.current = s.current)
    (hfollowing : s'.following = s.following) (hprevious : s'.previousStop = s.previousStop) :
    s'.At T k := by
  refine ⟨?_, ?_⟩
  · rw [hcurrent, hfollowing, h.tokens]
  · rw [hcurrent, hprevious]
    exact h.previous

/-- The tokens before a parser are in order. -/
theorem cursor (h : s.At T k) (hT : Tape length T) : Cursor length s := by
  refine ⟨?_, h.previous, ?_⟩
  · rw [h.tokens]
    exact hT.ordered.sublist (List.drop_sublist k T)
  · obtain ⟨front, hfront, hends⟩ := hT.ends
    obtain ⟨hk, -⟩ := List.getElem?_eq_some_iff.1 h.get
    have hlength : T.length = front.length + 1 := by rw [hends]; simp
    refine ⟨front.drop k, fun t ht => hfront t (List.mem_of_mem_drop ht), ?_⟩
    rw [h.tokens, hends, List.drop_append_of_le_length (by omega)]

/-- The next token is taken unless it ends the stream. -/
theorem advanced (h : s.At T k) (hT : Tape length T) (hkind : s.current.kind ≠ .endOfStream) :
    (Parser.advanced s).At T (k + 1) ∧ (Parser.advanced s).arena = s.arena := by
  have hlt := hT.lt_of_ne_endOfStream h.get hkind
  have hfollowing := h.following
  obtain ⟨u, rest, hrest⟩ : ∃ u rest, s.following = u :: rest := by
    cases hs : s.following with
    | nil =>
      have hlength := h.length_following
      rw [hs, List.length_nil] at hlength
      omega
    | cons u rest => exact ⟨u, rest, rfl⟩
  have hnew : Parser.advanced s =
      { s with current := u, following := rest, previousStop := s.current.stop } := by
    unfold Parser.advanced
    rw [hrest]
    exact if_neg hkind
  rw [hnew]
  have hget : T[k + 1]? = some u := by
    rw [← List.head?_drop, ← hfollowing, hrest, List.head?_cons]
  exact ⟨⟨hrest.symm.trans hfollowing, hT.stop_le h.get hget (Nat.lt_succ_self k)⟩, rfl⟩

/-- The end of the stream is not taken away. -/
theorem advanced_endOfStream (hkind : s.current.kind = .endOfStream) : Parser.advanced s = s := by
  unfold Parser.advanced
  split
  · rfl
  · exact if_pos hkind

end ParseState.At

/-! ## Steps within a line -/

/-- What holds no block is no suite. -/
theorem Form.kind_ne_suite {form : Form} (h : form.holdsBlock = false) : form.kind ≠ .suite := by
  intro hkind
  cases form with
  | suite => cases h
  | _ => cases hkind

/-- A later state is at a later place, and no suite has been added. -/
structure ParseState.Along (T : List Token) (s s' : ParseState) : Prop where
  /-- The place is the same or a later one. -/
  place : ∀ k, s.At T k → ∃ k', k ≤ k' ∧ s'.At T k'
  /-- The suites are those that there were. -/
  suites : ∀ x, s'.arena.kind? x = some .suite → s.arena.kind? x = some .suite

namespace ParseState.Along

variable {T : List Token} {s t u : ParseState}

theorem refl (s : ParseState) : s.Along T s := ⟨fun k h => ⟨k, Nat.le_refl k, h⟩, fun _ h => h⟩

theorem trans (hst : s.Along T t) (htu : t.Along T u) : s.Along T u := by
  refine ⟨fun k h => ?_, fun x h => hst.suites x (htu.suites x h)⟩
  obtain ⟨j, hkj, ht⟩ := hst.place k h
  obtain ⟨i, hji, hu⟩ := htu.place j ht
  exact ⟨i, Nat.le_trans hkj hji, hu⟩

/-- A token may be taken. -/
theorem advanced {length : Nat} (hT : Tape length T) (s : ParseState) :
    s.Along T (Parser.advanced s) := by
  refine ⟨fun k h => ?_, fun x h => arena_advanced s ▸ h⟩
  by_cases hkind : s.current.kind = .endOfStream
  · exact ⟨k, Nat.le_refl k, (ParseState.At.advanced_endOfStream hkind).symm ▸ h⟩
  · exact ⟨k + 1, Nat.le_succ k, (h.advanced hT hkind).1⟩

/-- What is no token and no node may change. -/
theorem same (hcurrent : t.current = s.current) (hfollowing : t.following = s.following)
    (hprevious : t.previousStop = s.previousStop) (harena : t.arena = s.arena) : s.Along T t :=
  ⟨fun k h => ⟨k, Nat.le_refl k, h.same hcurrent hfollowing hprevious⟩, fun _ h => harena ▸ h⟩

/-- A fault may be noted. -/
theorem fault (s : ParseState) (f : SyntaxFault) : s.Along T ((Parser.fault f).run s).2 := by
  show s.Along T (if _ then s else _)
  split
  · exact refl s
  · exact same rfl rfl rfl rfl

/-- A node may be added that holds no block. -/
theorem add (s : ParseState) {start stop : Nat} {form : Form} (hform : form.holdsBlock = false) :
    s.Along T { s with arena := (s.arena.add start stop form).2 } := by
  refine ⟨fun k h => ⟨k, Nat.le_refl k, h.same rfl rfl rfl⟩, fun x h => ?_⟩
  rw [Arena.kind?_add] at h
  split at h
  · exact absurd (Option.some.inj h) (Form.kind_ne_suite hform)
  · exact h

/-- A node may be widened. -/
theorem widened (s : ParseState) {i start stop : Nat} {owned : Bool} :
    s.Along T { s with arena := s.arena.widened i start stop, widenedOwned := owned } := by
  refine ⟨fun k h => ⟨k, Nat.le_refl k, h.same rfl rfl rfl⟩, fun x h => ?_⟩
  rwa [Arena.kind?_widened] at h

/-- The same may be done one level further in. -/
theorem deeper (h : ParseState.Along T { s with depth := s.depth + 1 } t) :
    s.Along T { t with depth := t.depth - 1 } := by
  have hin : s.Along T { s with depth := s.depth + 1 } := same rfl rfl rfl rfl
  have hout : t.Along T { t with depth := t.depth - 1 } := same rfl rfl rfl rfl
  exact hin.trans (h.trans hout)

end ParseState.Along

/-- What is read within a line goes on to a later place and adds no suite. -/
def Course.along {length : Nat} {T : List Token} (hT : Tape length T) : Course where
  Leads := ParseState.Along T
  Faulty _ := True
  Allows form := form.holdsBlock = false
  refl := .refl
  trans := .trans
  faulty _ h := h
  advanced := .advanced hT
  fault s f := .fault s f
  faulty_fault _ _ := trivial
  add s _ _ _ hform _ := .add s hform
  allows h _ := h
  title s _ := .trans (.advanced hT s) (.add (Parser.advanced s) rfl)
  number s _ _ := .trans (.advanced hT s) (.add (Parser.advanced s) rfl)
  widened s := .widened s
  deeper := .deeper

end TypeProbe
