import TypeProbe.Proofs.Tree.Ranges
import TypeProbe.Tree.Grammar.Parser

/-!
# What parsers build

`Holds` is the invariant of a parser between two steps: its tokens are in order, its arena and its
stack account for every node, nodes hold their children, and what is on the stack stands before the
next token. `Builds L p post` says that `p` leads from the stack `L` to the stack `post a`, where
`a` is what `p` returns. The rules of this module follow the shapes that parsers are written in, so
that the derivation for a rule of the grammar reads like the rule.

Offsets are put on a stack where a parser takes note of them (`Builds.peek`, `Builds.currentStart`)
and go when a node that starts there is added (`Builds.addNode`), or when they are of no more use
(`Builds.forget`, `Builds.under`).
-/

namespace TypeProbe

/-- A parser stands between two tokens of a text of the given number of bytes: tokens do not
overlap, and only the last one ends the stream. -/
structure Cursor (length : Nat) (s : ParseState) : Prop where
  /-- Each token stops before the next ones start. -/
  ordered : (s.current :: s.following).Pairwise fun t u => t.stop ≤ u.start
  /-- The last token taken stops before the next one starts. -/
  previous : s.previousStop ≤ s.current.start
  /-- The last token stands at the end of the text and ends the stream, and no other does. -/
  ends : ∃ front : List Token, (∀ t ∈ front, t.lexeme ≠ .endOfStream) ∧
    s.current :: s.following = front ++ [⟨⟨length, 0⟩, .endOfStream⟩]

/-- What holds of a parser between two steps, with the nodes and offsets on its stack. -/
structure Holds (length : Nat) (L : List Item) (s : ParseState) : Prop where
  /-- The tokens are in order. -/
  cursor : Cursor length s
  /-- Every node is accounted for. -/
  owned : Owned s.arena L
  /-- Nodes hold their children and stand before the next token. -/
  nested : Nested s.arena s.current.start
  /-- The items on the stack stand before the next token. -/
  laid : Laid s.arena L s.current.start
  /-- No node was widened when it had a parent. -/
  unwidened : s.widenedOwned = false

/-- A parser leads from a stack to the one that its result says. -/
def Builds {α : Type} (length : Nat) (L : List Item) (p : Parser α) (post : α → List Item) : Prop :=
  ∀ s, Holds length L s → Holds length (post (p.run s).1) (p.run s).2

/-! ## Tokens taken -/

/-- A token is the end of the stream just if its kind says so. -/
theorem Token.kind_eq_endOfStream {t : Token} :
    t.kind = .endOfStream ↔ t.lexeme = .endOfStream := by
  unfold Token.kind
  cases t.lexeme <;> simp [Lexeme.kind]

namespace Cursor

variable {length : Nat} {s : ParseState}

/-- The end of the stream has no length, and a token that is not the end has another after it. -/
theorem advanced (h : Cursor length s) :
    Cursor length (Parser.advanced s) ∧ s.current.stop ≤ (Parser.advanced s).current.start := by
  obtain ⟨front, hfront, hends⟩ := h.ends
  by_cases hend : s.current.kind = .endOfStream
  · -- Only the last token ends the stream, so nothing is left to be taken.
    have hnil : front = [] := by
      cases front with
      | nil => rfl
      | cons t front =>
        have ht : s.current = t := (List.cons.inj hends).1
        exact absurd (ht ▸ Token.kind_eq_endOfStream.1 hend) (hfront t List.mem_cons_self)
    rw [hnil, List.nil_append] at hends
    obtain ⟨hcurrent, hfollowing⟩ := List.cons.inj hends
    have hsame : Parser.advanced s = s := by
      unfold Parser.advanced
      rw [hfollowing]
    rw [hsame, hcurrent]
    exact ⟨h, Nat.le_refl length⟩
  · -- A token that does not end the stream is not the last one.
    have hnext : ∃ t rest, s.following = t :: rest := by
      cases hfollowing : s.following with
      | cons t rest => exact ⟨t, rest, rfl⟩
      | nil =>
        rw [hfollowing] at hends
        have hlast := congrArg List.getLast? hends
        rw [List.getLast?_append] at hlast
        exact absurd (Token.kind_eq_endOfStream.2 (congrArg Token.lexeme (Option.some.inj hlast)))
          hend
    obtain ⟨t, rest, hfollowing⟩ := hnext
    have hnew : Parser.advanced s =
        { s with current := t, following := rest, previousStop := s.current.stop } := by
      unfold Parser.advanced
      rw [hfollowing]
      exact if_neg hend
    have hordered := h.ordered
    rw [hfollowing, List.pairwise_cons] at hordered
    rw [hnew]
    have hle : s.current.stop ≤ t.start := hordered.1 t List.mem_cons_self
    refine ⟨⟨hordered.2, hle, ?_⟩, hle⟩
    cases front with
    | nil =>
      have := (List.cons.inj hends).2
      rw [hfollowing] at this
      cases this
    | cons u front =>
      exact ⟨front, fun v hv => hfront v (List.mem_cons_of_mem _ hv),
        hfollowing ▸ (List.cons.inj hends).2⟩

/-- The next token starts within the text. -/
theorem start_le (h : Cursor length s) : s.current.start ≤ length := by
  obtain ⟨front, -, hends⟩ := h.ends
  cases front with
  | nil =>
    rw [(List.cons.inj hends).1]
    exact Nat.le_refl length
  | cons t front =>
    have hordered := h.ordered
    rw [(List.cons.inj hends).2, List.pairwise_cons] at hordered
    have hle := hordered.1 _ (List.mem_append_right _ (List.mem_singleton.2 rfl))
    exact Nat.le_trans s.current.range.start_le_stop hle

end Cursor

namespace Holds

variable {length n : Nat} {L K : List Item} {s s' : ParseState}

/-- A parser may go on to later tokens. -/
theorem move (h : Holds length L s) (hcursor : Cursor length s') (harena : s'.arena = s.arena)
    (hwidened : s'.widenedOwned = s.widenedOwned) (hle : s.current.start ≤ s'.current.start) :
    Holds length L s' where
  cursor := hcursor
  owned := harena ▸ h.owned
  nested p r hp := by
    rw [harena] at hp ⊢
    exact ⟨Nat.le_trans (h.nested p r hp).1 hle, (h.nested p r hp).2⟩
  laid := harena ▸ h.laid.mono hle
  unwidened := hwidened ▸ h.unwidened

/-- A parser may note what it likes. -/
theorem same (h : Holds length L s) (hcurrent : s'.current = s.current)
    (hfollowing : s'.following = s.following) (hprevious : s'.previousStop = s.previousStop)
    (harena : s'.arena = s.arena) (hwidened : s'.widenedOwned = s.widenedOwned) :
    Holds length L s' := by
  refine h.move ⟨?_, ?_, ?_⟩ harena hwidened (hcurrent ▸ Nat.le_refl _)
  · rw [hcurrent, hfollowing]
    exact h.cursor.ordered
  · rw [hcurrent, hprevious]
    exact h.cursor.previous
  · rw [hcurrent, hfollowing]
    exact h.cursor.ends

/-- The next token may be taken. -/
theorem advanced (h : Holds length L s) : Holds length L (Parser.advanced s) := by
  obtain ⟨hcursor, hle⟩ := h.cursor.advanced
  have harena : (Parser.advanced s).arena = s.arena ∧
      (Parser.advanced s).widenedOwned = s.widenedOwned := by
    unfold Parser.advanced
    split
    · exact ⟨rfl, rfl⟩
    · split <;> exact ⟨rfl, rfl⟩
  exact h.move hcursor harena.1 harena.2 (Nat.le_trans s.current.range.start_le_stop hle)

/-- An offset before the next token may be put on the stack. -/
theorem mark (h : Holds length L s) (hn : n ≤ s.current.start) (hlaid : Laid s.arena L n) :
    Holds length (.mark n :: L) s where
  cursor := h.cursor
  owned := h.owned.congr rfl rfl fun item hitem => by
    rcases List.mem_cons.1 hitem with rfl | hitem
    · trivial
    · exact h.owned.fits item hitem
  nested := h.nested
  laid := ⟨hn, hlaid⟩
  unwidened := h.unwidened

/-- Offsets on the stack may be forgotten or put between other items. -/
theorem restack (h : Holds length L s) (hheld : held K = held L) (htop : topItem? K = topItem? L)
    (hfits : ∀ item ∈ K, item ∈ L ∨ ∃ n, item = .mark n) (hlaid : Laid s.arena K s.current.start) :
    Holds length K s where
  cursor := h.cursor
  owned := h.owned.congr hheld htop fun item hitem => by
    rcases hfits item hitem with hitem | ⟨n, rfl⟩
    · exact h.owned.fits item hitem
    · trivial
  nested := h.nested
  laid := hlaid
  unwidened := h.unwidened

/-- An offset may be forgotten below other items. -/
theorem under (S : List Item) (h : Holds length (S ++ .mark n :: L) s) :
    Holds length (S ++ L) s := by
  refine h.restack ?_ ?_ (fun item hitem => .inl ?_) (h.laid.replace fun _ h => h.tail)
  · simp only [held, List.filterMap_append]
    rfl
  · exact topItem?_append_congr S rfl
  · rcases List.mem_append.1 hitem with hitem | hitem
    · exact List.mem_append_left _ hitem
    · exact List.mem_append_right _ (List.mem_cons_of_mem _ hitem)

/-- An offset may be noted twice below other items. -/
theorem twice (S : List Item) (h : Holds length (S ++ .mark n :: L) s) :
    Holds length (S ++ .mark n :: .mark n :: L) s := by
  refine h.restack ?_ ?_ (fun item hitem => ?_)
    (h.laid.replace fun _ h => ⟨h.1, Nat.le_refl n, h.2⟩)
  · simp only [held, List.filterMap_append]
    rfl
  · exact topItem?_append_congr S rfl
  · simp only [List.mem_append, List.mem_cons] at hitem ⊢
    rcases hitem with hitem | hitem | hitem
    · exact .inl (.inl hitem)
    · exact .inr ⟨n, hitem⟩
    · exact .inl (.inr hitem)

/-- The start of a node on the stack may be put below it. -/
theorem markBelow {item : Item} {id : NodeId} {r : TextRange} (S : List Item)
    (h : Holds length (S ++ item :: L) s) (hitem : item.id? = some id)
    (hr : s.arena.range? id = some r) : Holds length (S ++ item :: .mark r.start :: L) s := by
  refine h.restack ?_ ?_ (fun other hother => ?_) (h.laid.replace fun n hlaid => ?_)
  · simp only [held, List.filterMap_append, List.filterMap_cons_some hitem]
    rfl
  · refine topItem?_append_congr S ?_
    cases item with
    | mark => cases hitem
    | node => rfl
    | decorator => rfl
  · simp only [List.mem_append, List.mem_cons] at hother ⊢
    rcases hother with hother | rfl | rfl | hother
    · exact .inl (.inl hother)
    · exact .inl (.inr (.inl rfl))
    · exact .inr ⟨_, rfl⟩
    · exact .inl (.inr (.inr hother))
  · cases item with
    | mark => cases hitem
    | node =>
      obtain ⟨r', hr', hstop, hrest⟩ := hlaid
      obtain rfl := Option.some.inj hitem
      obtain rfl := Option.some.inj (hr'.symm.trans hr)
      exact ⟨r', hr', hstop, Nat.le_refl _, hrest⟩
    | decorator =>
      obtain ⟨r', hr', hstop, hrest⟩ := hlaid
      obtain rfl := Option.some.inj hitem
      obtain rfl := Option.some.inj (hr'.symm.trans hr)
      exact ⟨r', hr', hstop, Nat.le_refl _, hrest⟩

/-- A node on the stack exists. -/
theorem exists_range {item : Item} {id : NodeId} (S : List Item)
    (h : Holds length (S ++ item :: L) s) (hitem : item.id? = some id) :
    ∃ r, s.arena.range? id = some r ∧ r.stop ≤ s.current.start := by
  have hmem : id ∈ held (S ++ item :: L) := List.mem_filterMap.2 ⟨item, by simp, hitem⟩
  have hget := Arena.get?_eq_some_iff.2 ⟨(h.owned.held_free id hmem).1, rfl⟩
  have hsome : (s.arena.range? id).isSome := by simp [Arena.range?, hget]
  obtain ⟨r, hr⟩ := Option.isSome_iff_exists.1 hsome
  exact ⟨r, hr, (h.nested id r hr).1⟩

/-- A new node takes the place of its children and of an offset below them and its start; the
children are decorators and then other nodes. -/
theorem addAbove {start stop : Nat} {form : Form} (decorators ids : List NodeId)
    (h : Holds length (pushed ids (decorated decorators (.mark n :: L))) s)
    (hchildren : form.children = decorators ++ ids) (hn : n ≤ start)
    (hstart : start ≤ s.current.start) (hstop : stop ≤ s.current.start)
    (hplain : ∀ t, form ≠ .error .missingFunctionParameterList (some t)) :
    Holds length (.ofForm form s.arena.size :: L)
      { s with arena := (s.arena.add start stop form).2 } := by
  obtain ⟨lo, hlaid, harranged⟩ := h.laid.of_pushed
  rw [← hchildren] at harranged
  have hheld : held (pushed ids (decorated decorators (.mark n :: L))) =
      form.children.reverse ++ ([] ++ held L) := by
    rw [held_put fun _ => rfl, held_put fun _ => rfl, hchildren, List.reverse_append,
      List.append_assoc]
    rfl
  have hmem : ∀ item ∈ L, item ∈ pushed ids (decorated decorators (.mark n :: L)) := by
    intro item hitem
    rw [pushed, decorated, put_eq, put_eq]
    exact List.mem_append_right _ (List.mem_append_right _ (List.mem_cons_of_mem _ hitem))
  refine ⟨⟨h.cursor.ordered, h.cursor.previous, h.cursor.ends⟩,
    h.owned.add hheld hmem nofun fun i hi => absurd hi.2 (hplain (i + 1)),
    h.nested.add harranged hstart hstop,
    .add harranged hlaid.1 hn hstart hstop hlaid.2 fun id hid => ?_, h.unwidened⟩
  exact (h.owned.held_free id (hheld ▸ List.mem_append_right _ hid)).1

/-- A new node takes the place of its children and of the offset at which it starts. -/
theorem add {start stop : Nat} {form : Form}
    (h : Holds length (pushed form.children (.mark start :: L)) s) (hstop : stop ≤ s.current.start)
    (hplain : ∀ t, form ≠ .error .missingFunctionParameterList (some t)) :
    Holds length (.ofForm form s.arena.size :: L)
      { s with arena := (s.arena.add start stop form).2 } := by
  refine h.addAbove [] form.children rfl (Nat.le_refl start) (h.laid.mark_le ?_) hstop hplain
  rw [pushed, put_eq]
  exact List.mem_append_right _ List.mem_cons_self

/-- Parentheses around the last node widen it. -/
theorem widened {id : NodeId} {start stop : Nat}
    (h : Holds length (.node id :: .mark start :: L) s) (hstop : stop ≤ s.current.start) :
    Holds length (.node id :: L)
      { s with
        arena := s.arena.widened id start stop
        widenedOwned := s.widenedOwned || (s.arena.parent? id).isSome } := by
  have hfree := (h.owned.held_free id List.mem_cons_self).2
  have hunheld : id ∉ held L := (List.nodup_cons.1 h.owned.held_nodup).1
  have howned : Owned s.arena (.node id :: L) := h.owned.congr rfl rfl fun item hitem => by
    rcases List.mem_cons.1 hitem with rfl | hitem
    · exact h.owned.fits _ List.mem_cons_self
    · exact h.owned.fits item (List.mem_cons_of_mem _ (List.mem_cons_of_mem _ hitem))
  refine ⟨⟨h.cursor.ordered, h.cursor.previous, h.cursor.ends⟩, howned.widened id start stop,
    h.nested.widened (fun p hp => ?_) hstop, h.laid.widened hunheld hstop, ?_⟩
  · rw [(h.owned.linked id p).2 hp] at hfree
    cases hfree
  · show (s.widenedOwned || (s.arena.parent? id).isSome) = false
    rw [h.unwidened, hfree]
    rfl

end Holds

/-! ## Rules for the shapes of parsers -/

namespace Builds

variable {α β : Type} {length n : Nat} {L K : List Item} {p q : Parser α} {post mid : α → List Item}

/-- A result may be returned. -/
theorem ret {a : α} (h : post a = L) : Builds length L (pure a) post := fun _ hs => h ▸ hs

/-- A parser may be followed by another one. -/
theorem bind {f : α → Parser β} {post : β → List Item} (hp : Builds length L p mid)
    (hf : ∀ a, Builds length (mid a) (f a) post) : Builds length L (p >>= f) post :=
  fun s h => hf _ _ (hp s h)

/-- What holds after a parser and another one behind it may be shown from the result and the state
between them. -/
theorem run_bind {s : ParseState} {f : α → Parser β} {Q : β → List Item}
    (h : ∀ a s', p.run s = (a, s') → Holds length (Q ((f a).run s').1) ((f a).run s').2) :
    Holds length (Q ((p >>= f).run s).1) ((p >>= f).run s).2 := h _ _ rfl

/-- What is returned may be changed. -/
theorem map {f : α → β} {post : β → List Item} (hp : Builds length L p fun a => post (f a)) :
    Builds length L (f <$> p) post := hp

/-- A parser may choose between two. -/
theorem ite {c : Prop} [Decidable c] (hp : Builds length L p post) (hq : Builds length L q post) :
    Builds length L (if c then p else q) post := by
  split
  · exact hp
  · exact hq

/-- What holds of one stack may be used as far as it holds of another one. -/
theorem weaken (hLK : ∀ s, Holds length L s → Holds length K s) (hp : Builds length K p post) :
    Builds length L p post := fun s h => hp s (hLK s h)

/-- A stack may be said in another way. -/
theorem congr {post' : α → List Item} (hp : Builds length L p post)
    (hpost : ∀ a, post a = post' a) : Builds length L p post' := fun s h => hpost _ ▸ hp s h

/-- A parser that leaves the state builds nothing. -/
theorem read (hp : ∀ s, (p.run s).2 = s) : Builds length L p fun _ => L := fun s h => by
  rw [hp]
  exact h

/-- A parser may look at its state, and see there what its stack is. -/
theorem look_bind {f : ParseState → Parser α}
    (hf : ∀ s, Holds length L s → ∃ K, Holds length K s ∧ Builds length K (f s) post) :
    Builds length L (get >>= f) post := fun s h => by
  obtain ⟨K, hK, hbuilds⟩ := hf s h
  exact hbuilds s hK

/-- What a parser does to the state may not matter for the stack. -/
theorem keep (hp : ∀ s, Holds length L s → Holds length L (p.run s).2) :
    Builds length L p fun _ => L := hp

/-- The last offset may be forgotten. -/
theorem forget (hp : Builds length L p post) : Builds length (.mark n :: L) p post :=
  weaken (fun _ h => h.under []) hp

/-- Some offset may be noted. -/
theorem fromMark (hp : ∀ n, Builds length (.mark n :: L) p post) : Builds length L p post :=
  fun s h => hp s.current.start s (h.mark (Nat.le_refl _) h.laid)

/-- An offset may be forgotten below other items. -/
theorem under (S : List Item) (hp : Builds length (S ++ L) p post) :
    Builds length (S ++ .mark n :: L) p post := hp.weaken fun _ h => h.under S

/-- An offset may be noted twice below other items. -/
theorem twice (S : List Item) (hp : Builds length (S ++ .mark n :: .mark n :: L) p post) :
    Builds length (S ++ .mark n :: L) p post := hp.weaken fun _ h => h.twice S

end Builds

end TypeProbe
