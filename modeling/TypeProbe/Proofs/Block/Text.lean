import TypeProbe.Proofs.Block.Statements
import TypeProbe.Proofs.Tree.Finding

/-!
# The blocks of a text

A suite that is indented has all statements of its block and nothing of what comes behind it
(`ParsedText.ofText_blocks`). The block ends where the indentations that open blocks say: with the
dedentation that matches its own indentation in the text, if all indentations in between open
blocks. One that opens none is passed over without being counted, and its dedentation ends the block
around it.
-/

open TypeProbe.Parser

namespace TypeProbe

/-! ## Where suites start -/

section Places

variable {length h h' m : Nat} {T : List Token} {t : Token}

/-- A block starts at a colon or at the end of a line. -/
theorem Opening.kind_ne (hopen : Opening T h m) (ht : T[h]? = some t) :
    t.kind ≠ .dedent ∧ t.kind ≠ .endOfStream := by
  have hkind : kindAt T h = some t.kind := congrArg _ ht
  cases hopen with
  | colon hcolon hline hindent =>
    rw [Option.some.inj (hkind.symm.trans hcolon)]
    decide
  | bare hline hindent =>
    rw [Option.some.inj (hkind.symm.trans hline)]
    decide

/-- The token that a block starts at has bytes. -/
theorem Opening.bytes (hopen : Opening T h m) (hT : Tape length T) (ht : T[h]? = some t) :
    t.start < t.stop := by
  cases hopen with
  | colon hcolon hline hindent =>
    have hkind : t.kind = .colon := Option.some.inj ((congrArg _ ht).symm.trans hcolon)
    refine (hT.stands_at ht).written (Token.isWritten_of_not_isLayout ?_ (by rw [hkind]; decide))
    rintro (hlayout | hlayout | hlayout) <;> cases hkind.symm.trans hlayout
  | bare hline hindent =>
    obtain ⟨u, hu, hkind⟩ := kindAt_eq_some.1 hindent
    refine (hT.stands_at hu).bytes (by rw [hkind]; decide) (by rw [hkind]; decide) t
      (Tape.mem_take ht (Nat.lt_succ_self h)) ?_
    exact Option.some.inj ((congrArg _ ht).symm.trans hline)

/-- A node that starts where a block does starts at no other token of a line. -/
theorem Arena.StartsAt.unique {a : Arena} {x : NodeId} (hx : a.StartsAt T x h)
    (hx' : a.StartsAt T x h') (hT : Tape length T) (hopen : Opening T h m) (hline : InLine T h') :
    h = h' := by
  obtain ⟨r, t, hr, ht, hstart⟩ := hx
  obtain ⟨r', t', hr', ht', hstart'⟩ := hx'
  obtain rfl := Option.some.inj (hr.symm.trans hr')
  rcases Nat.lt_trichotomy h h' with hlt | heq | hlt
  · have hbytes := hopen.bytes hT ht
    have hstop := hT.stop_le ht ht' hlt
    omega
  · exact heq
  · -- A token of a line has bytes if a block starts behind it.
    have hbytes : t'.start < t'.stop := by
      by_cases hlayout : t'.IsLayout
      · have hkind := hlayout.resolve_right (hline t' ht')
        obtain ⟨hdedent, hend⟩ := hopen.kind_ne ht
        exact (hT.stands_at ht).bytes hdedent hend t' (Tape.mem_take ht' hlt) hkind
      · obtain ⟨hlast, -⟩ := List.getElem?_eq_some_iff.1 ht
        exact (hT.stands_at ht').written
          (Token.isWritten_of_not_isLayout hlayout (hT.ne_endOfStream ht' (by omega)))
    have hstop := hT.stop_le ht' ht hlt
    omega

end Places

/-! ## The statements of a text -/

/-- What a round of a text does depends on the kind of the next token. -/
theorem Grammar.moduleItem_cases (call : Rules) (s : ParseState) :
    (s.current.lexeme.IsWritten ∧ (moduleItem call).run s =
        (some (some ((call .statement).run s).1), ((call .statement).run s).2)) ∨
      (moduleItem call).run s = (none, s) ∨
      (s.current.kind ≠ .endOfStream ∧
        ∃ u, s.Same u ∧ (moduleItem call).run s = (some none, advanced u)) := by
  obtain ⟨⟨range, lexeme⟩⟩ := s
  cases lexeme with
  | endOfStream => exact .inr (.inl rfl)
  | newLine kind =>
    exact .inr (.inr ⟨by simp [Token.kind, Lexeme.kind], _, ⟨rfl, rfl, rfl, rfl⟩, rfl⟩)
  | indent amount =>
    exact .inr (.inr ⟨by simp [Token.kind, Lexeme.kind], _,
      same_faultAt range .unexpectedIndent _, rfl⟩)
  | dedent amount matchesIndent =>
    exact .inr (.inr ⟨by simp [Token.kind, Lexeme.kind], _,
      same_faultAt range .unexpectedUnindent _, rfl⟩)
  | _ => exact .inl ⟨trivial, rfl⟩

/-- All statements of a text are read, with the blocks in them. -/
theorem Region.of_text {length fuel k : Nat} {T : List Token} {s : ParseState}
    (hT : Tape length T) (hs : s.At T k) (hw : 4 * T.length < fuel) :
    ∃ j opens, Region T s ((many (Grammar.moduleItem (Rule.parse fuel))).run s).2 k j
      (((many (Grammar.moduleItem (Rule.parse fuel))).run s).1.filterMap id) opens := by
  refine many_ends
    (I := fun items t => ∃ j opens, Region T s t k j (items.filterMap id) opens)
    (J := fun items t => ∃ j opens, Region T s t k j (items.filterMap id) opens) ?_ ?_
    ⟨k, _, .refl hs⟩
  · rintro items t item u ⟨j, opens, h⟩ hrun
    rw [List.filterMap_append]
    have hlength := h.place.length_following
    have hw' : 4 * t.following.length + 4 < fuel := by omega
    rcases Grammar.moduleItem_cases (Rule.parse fuel) t with
      ⟨hwritten, hitem⟩ | hitem | ⟨hend, v, hsame, hitem⟩
    · -- A statement is read.
      cases hrun.symm.trans hitem
      obtain ⟨i, opens', hi⟩ := (RulesPassage.parse hT fuel).statement _ hw' t j h.place hwritten
        (Nat.le_refl _)
      exact ⟨⟨i, _, h.append hT hi.region⟩,
        Rule.parse_statement_lt hT hw' h.place hwritten (Nat.le_refl _)⟩
    · cases hrun.symm.trans hitem
    · -- A token is passed over.
      cases hrun.symm.trans hitem
      have hv := h.place.same hsame.current hsame.following hsame.previous
      obtain ⟨hnext, harena⟩ := hv.advanced hT (hsame.current ▸ hend)
      have hlength' := hnext.length_following
      exact ⟨⟨j + 1, _, h.append hT (.of_same h.place hnext (Nat.le_succ j)
        (harena.trans hsame.arena))⟩, by omega⟩
  · rintro items t u ⟨j, opens, h⟩ hrun
    rcases Grammar.moduleItem_cases (Rule.parse fuel) t with
      ⟨-, hitem⟩ | hitem | ⟨-, v, -, hitem⟩
    · cases hrun.symm.trans hitem
    · cases hrun.symm.trans hitem
      exact ⟨j, opens, h⟩
    · cases hrun.symm.trans hitem

namespace ParsedText

/-- The parser of a text begins at its first token. -/
theorem at_initialState (text : List Char) :
    (initialState (byteLength text) (Tokens.ofText text)).At (Tokens.ofText text) 0 := by
  obtain ⟨front, -, hends⟩ := (tape_ofText text).ends
  refine ⟨tokens_initialState ?_, Nat.zero_le _⟩
  rw [hends]
  exact List.append_ne_nil_of_right_ne_nil front (List.cons_ne_nil _ _)

/-- An indentation opens a block: a suite starts at the colon before it, or at the end of the line
if the colon is missing. -/
def Opens (p : ParsedText) (m : Nat) : Prop :=
  ∃ h x, Opening p.tokens h m ∧ p.arena.kind? x = some .suite ∧ p.arena.StartsAt p.tokens x h

/-- A suite has the block of the indentation at the first place. The block ends at the second one;
the dedentation at the third one matches the indentation in the text. -/
structure HasBlock (p : ParsedText) (x : NodeId) (k e m : Nat) : Prop where
  /-- The block ends where the indentations that open blocks say. -/
  closes : Closes p.tokens p.Opens k e
  /-- The dedentation that matches the indentation, whatever opens blocks. -/
  closesAll : Closes p.tokens (fun _ => True) k m
  /-- The block does not go on behind that. -/
  le : e ≤ m
  /-- It ends just there, if all indentations in between open blocks. -/
  eq : (∀ j, k < j → j < m → kindAt p.tokens j = some .indent → p.Opens j) → e = m
  /-- The suite has what starts at a token of the block. -/
  within : ∀ y j t, p.arena.Reaches p.root y → p.arena.StartsAt p.tokens y j →
    p.tokens[j]? = some t → t.lexeme.IsWritten → k < j → j < e → p.arena.Reaches x y
  /-- It has nothing of what comes behind the block. -/
  before : ∀ y r u, p.arena.Reaches x y → p.arena.range? y = some r → p.tokens[e + 1]? = some u →
    r.stop ≤ u.start

/-- The suites of a text have the blocks that are opened where they start. -/
theorem contains_ofText (text : String) :
    let p := ofText text
    ∀ x h m, p.arena.kind? x = some .suite → p.arena.StartsAt p.tokens x h →
      Opening p.tokens h m → ∃ k, p.arena.Contains p.tokens p.Opens [p.root] k x h m := by
  intro p
  have hT : Tape (byteLength text.toList) p.tokens := tape_ofText text.toList
  have hlimit : 4 * p.tokens.length < callLimit p.tokens.length := by
    unfold callLimit
    omega
  obtain ⟨k, opens, hregion⟩ := Region.of_text hT (at_initialState text.toList) hlimit
  obtain ⟨hroot, harena, -⟩ := ofText_items text
  have hgrown : (items text.toList).2.arena.Extends p.arena := harena ▸ .add _ _ _ _
  -- Suites of the text were there before its root.
  have hsuites : ∀ x h m, p.arena.kind? x = some .suite → p.arena.StartsAt p.tokens x h →
      Opening p.tokens h m → (items text.toList).2.arena.Contains p.tokens opens
        ((items text.toList).1.filterMap id) k x h m := by
    intro x h m hkind hstarts hopen
    have hkind' : (items text.toList).2.arena.kind? x = some .suite := by
      rw [harena, Arena.kind?_add] at hkind
      split at hkind
      · cases hkind
      · exact hkind
    obtain ⟨h', -, hline, hstarts', hcontains⟩ := hregion.suites x (Nat.zero_le x) hkind'
    obtain rfl := hstarts.unique (hstarts'.grow hgrown) hT hopen hline
    exact hcontains m hopen
  have hopens : ∀ n, opens n ↔ p.Opens n := by
    refine fun n => ⟨fun hn => ?_, ?_⟩
    · obtain ⟨h, x, hopen, hkind, hstarts⟩ := hregion.opened n hn
      exact ⟨h, x, hopen, (hgrown.kind (Arena.lt_size_of_kind? hkind)).trans hkind,
        hstarts.grow hgrown⟩
    · rintro ⟨h, x, hopen, hkind, hstarts⟩
      exact (hsuites x h n hkind hstarts hopen).opened
  intro x h m hkind hstarts hopen
  refine ⟨k, ?_⟩
  rw [hroot, harena]
  refine (hsuites x h m hkind hstarts hopen).add (fun _ hc => hc) hregion.rooted
    (fun r t hr _ => ?_) fun n _ => hopens n
  have hrange := range?_root text
  rw [hroot, harena, hr] at hrange
  rw [Option.some.inj hrange]
  exact Nat.zero_le _

/-- A suite that is indented has all statements of its block. -/
theorem ofText_blocks (text : String) :
    let p := ofText text
    ∀ x h k, p.arena.kind? x = some .suite → p.arena.StartsAt p.tokens x h →
      Opening p.tokens h k → ∃ e m, p.HasBlock x k e m := by
  intro p x h k hkind hstarts hopen
  have hT : Tape (byteLength text.toList) p.tokens := tape_ofText text.toList
  obtain ⟨-, -, e, d, u, -, hcloses, hd, hu, hspans, hall⟩ :=
    contains_ofText text x h k hkind hstarts hopen
  obtain ⟨m, hmatch⟩ := hT.exists_closes hopen.indent
  refine ⟨e, m, hcloses, hmatch, hcloses.le hmatch hopen.indent, fun hopens => ?_,
    fun y j t hy hstart ht hwritten hkj hje => ?_, fun y r u' hy hr hu' => ?_⟩
  · refine (hmatch.unique hcloses fun j hkj hjm hindent => ?_).symm
    exact iff_of_true trivial (hopens j hkj hjm hindent)
  · obtain ⟨r, t', hr, ht', hrt⟩ := hstart
    obtain rfl := Option.some.inj (ht.symm.trans ht')
    obtain ⟨hhk, -⟩ := hopen.bounds
    obtain ⟨-, b, -, hb, -⟩ := id hstarts
    -- What the token has of the text is between the start of the suite and the dedentation.
    have hcolon := hopen.bytes hT hb
    have hbehind := hT.stop_le hb ht (by omega)
    have hbytes := (hT.stands_at ht).written hwritten
    have hbefore := hT.stop_le ht hd hje
    exact hall _ (List.mem_singleton_self _) y r b hy hr hb (by omega) (by omega)
  · obtain ⟨-, r', hr', -, hstop⟩ := hspans y hy
    obtain rfl := Option.some.inj (hr.symm.trans hr')
    rwa [Option.some.inj (hu'.symm.trans hu)]

/-- The suite of a condition has its block, in which a line is indented that should not be. -/
theorem ofText_blocks_indentedLine :
    ((ofText "if a:\n b\n  c\n d\n").arena.kind? 5 = some .suite ∧
      (ofText "if a:\n b\n  c\n d\n").arena.StartsAt
        (ofText "if a:\n b\n  c\n d\n").tokens 5 2 ∧
      Opening (ofText "if a:\n b\n  c\n d\n").tokens 2 4) ∧
    ∃ e m, (ofText "if a:\n b\n  c\n d\n").HasBlock 5 4 e m := by
  have hkind : (ofText "if a:\n b\n  c\n d\n").arena.kind? 5 = some .suite := by decide +kernel
  have hstarts : (ofText "if a:\n b\n  c\n d\n").arena.StartsAt
      (ofText "if a:\n b\n  c\n d\n").tokens 5 2 :=
    ⟨⟨4, 8⟩, ⟨⟨4, 1⟩, .colon⟩, by decide +kernel, by decide +kernel, rfl⟩
  have hopen : Opening (ofText "if a:\n b\n  c\n d\n").tokens 2 4 :=
    .colon (by decide +kernel) (by decide +kernel) (by decide +kernel)
  exact ⟨⟨hkind, hstarts, hopen⟩, ofText_blocks "if a:\n b\n  c\n d\n" 5 2 4 hkind hstarts hopen⟩

end ParsedText

end TypeProbe
