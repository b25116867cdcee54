import TypeProbe.Proofs.Block.Tape

/-!
# How blocks nest

A block is opened by an indentation behind the end of a line, before which its colon stands unless
it is missing (`Opening`). Tokens are nested (`Nests`) if each indentation that opens a block comes
with the dedentation that closes it; which of the indentations open blocks is given. The place where
a block is closed is then determined (`Closes.unique`), and blocks that are open where a nest begins
are open where it ends (`Nests.openWidths_suffix`).
-/

namespace TypeProbe

/-- A block is opened at two places: there are its colon, or the end of the line if the colon is
missing, and its indentation. -/
inductive Opening (T : List Token) : Nat → Nat → Prop where
  | colon {h : Nat} (hcolon : kindAt T h = some .colon) (hline : kindAt T (h + 1) = some .newLine)
      (hindent : kindAt T (h + 2) = some .indent) : Opening T h (h + 2)
  | bare {h : Nat} (hline : kindAt T h = some .newLine)
      (hindent : kindAt T (h + 1) = some .indent) : Opening T h (h + 1)

/-- From one place to another, blocks are closed in turn. Of the indentations just those at the
given places open blocks. -/
inductive Nests (T : List Token) (opens : Nat → Prop) : Nat → Nat → Prop where
  | done (i : Nat) : Nests T opens i i
  | step {i k : Nat} (hdedent : kindAt T i ≠ some .dedent)
      (hindent : kindAt T i = some .indent → ¬ opens i) (hrest : Nests T opens (i + 1) k) :
      Nests T opens i k
  | block {i j k : Nat} (hindent : kindAt T i = some .indent) (hopens : opens i)
      (hinner : Nests T opens (i + 1) j) (hdedent : kindAt T j = some .dedent)
      (hrest : Nests T opens (j + 1) k) : Nests T opens i k

/-- The block of the indentation at the first place is closed by the dedentation at the second one,
if just the indentations at the given places open blocks. -/
structure Closes (T : List Token) (opens : Nat → Prop) (m e : Nat) : Prop where
  /-- The blocks between the two are closed. -/
  nests : Nests T opens (m + 1) e
  /-- The block itself is closed. -/
  dedent : kindAt T e = some .dedent

/-! ## Open blocks after a token -/

/-- An indentation opens one more block. -/
theorem widthsAfter_of_indent {t : Token} (h : t.kind = .indent) (widths : List Nat) :
    ∃ amount, widthsAfter widths t = amount :: widths := by
  obtain ⟨range, x⟩ := t
  cases x with
  | indent amount => exact ⟨amount, rfl⟩
  | _ => cases h

/-- A dedentation closes the innermost block. -/
theorem widthsAfter_of_dedent {t : Token} (h : t.kind = .dedent) (widths : List Nat) :
    widthsAfter widths t = widths.tail := by
  obtain ⟨range, x⟩ := t
  cases x with
  | dedent => rfl
  | _ => cases h

/-- Other tokens leave the open blocks. -/
theorem widthsAfter_of_not_isBlockMark {t : Token} (h : ¬ t.IsBlockMark) (widths : List Nat) :
    widthsAfter widths t = widths := by
  obtain ⟨range, x⟩ := t
  cases x with
  | indent => exact absurd (.inl rfl) h
  | dedent => exact absurd (.inr rfl) h
  | _ => rfl

/-! ## Blocks that are opened -/

namespace Opening

variable {T : List Token} {h m : Nat}

/-- The second token opens the block. -/
theorem indent (hopen : Opening T h m) : kindAt T m = some .indent := by
  cases hopen with
  | colon hcolon hline hindent => exact hindent
  | bare hline hindent => exact hindent

/-- The end of a line stands before it. -/
theorem newLine (hopen : Opening T h m) : ∃ i, h ≤ i ∧ m = i + 1 ∧ kindAt T i = some .newLine := by
  cases hopen with
  | colon hcolon hline hindent => exact ⟨h + 1, Nat.le_succ h, rfl, hline⟩
  | bare hline hindent => exact ⟨h, Nat.le_refl h, rfl, hline⟩

/-- The indentation comes soon after the token that the block starts at. -/
theorem bounds (hopen : Opening T h m) : h < m ∧ m ≤ h + 2 := by
  cases hopen with
  | colon hcolon hline hindent => omega
  | bare hline hindent => omega

/-- Behind its colon, or where the colon is missing, a block needs the end of the line and an
indentation. -/
theorem iff_of_head {j : Nat}
    (hj : kindAt T h = some .colon ∧ j = h + 1 ∨ kindAt T h ≠ some .colon ∧ j = h) :
    Opening T h m ↔ m = j + 1 ∧ kindAt T j = some .newLine ∧ kindAt T (j + 1) = some .indent := by
  constructor
  · rintro (⟨hcolon, hline, hindent⟩ | ⟨hline, hindent⟩)
    · obtain ⟨-, rfl⟩ := hj.resolve_right fun hne => hne.1 hcolon
      exact ⟨rfl, hline, hindent⟩
    · obtain ⟨-, rfl⟩ := hj.resolve_left fun heq => by cases heq.1.symm.trans hline
      exact ⟨rfl, hline, hindent⟩
  · rintro ⟨rfl, hline, hindent⟩
    obtain ⟨hcolon, rfl⟩ | ⟨-, rfl⟩ := hj
    · exact .colon hcolon hline hindent
    · exact .bare hline hindent

/-- The first place determines the second one. -/
theorem unique {m' : Nat} (hopen : Opening T h m) (hopen' : Opening T h m') : m = m' := by
  cases hopen with
  | colon hcolon hline hindent =>
    cases hopen' with
    | colon hcolon' hline' hindent' => rfl
    | bare hline' hindent' => cases hcolon.symm.trans hline'
  | bare hline hindent =>
    cases hopen' with
    | colon hcolon' hline' hindent' => cases hline.symm.trans hcolon'
    | bare hline' hindent' => rfl

/-- Where a block starts later, it is not opened earlier. -/
theorem mono {h' m' : Nat} (hopen : Opening T h m) (hopen' : Opening T h' m') (hle : h ≤ h') :
    m ≤ m' := by
  by_contra hlt
  have hm := hopen.bounds
  have hm' := hopen'.bounds
  obtain rfl : h = h' := by omega
  exact hlt (Nat.le_of_eq (hopen.unique hopen'))

end Opening

/-! ## Blocks that are closed in turn -/

namespace Nests

variable {T : List Token} {opens opens' : Nat → Prop} {i j k : Nat}

/-- A nest goes on to a later place. -/
theorem le (h : Nests T opens i k) : i ≤ k := by
  induction h with
  | done i => exact Nat.le_refl i
  | step hdedent hindent hrest ih => omega
  | block hindent hopens hinner hdedent hrest ihinner ihrest => omega

/-- A nest may follow another one. -/
theorem trans (hij : Nests T opens i j) (hjk : Nests T opens j k) : Nests T opens i k := by
  induction hij with
  | done i => exact hjk
  | step hdedent hindent hrest ih => exact .step hdedent hindent (ih hjk)
  | block hindent hopens hinner hdedent hrest ihinner ihrest =>
    exact .block hindent hopens hinner hdedent (ihrest hjk)

/-- Only the places in between matter. -/
theorem congr (h : Nests T opens i k) (heq : ∀ m, i ≤ m → m < k → (opens m ↔ opens' m)) :
    Nests T opens' i k := by
  induction h with
  | done i => exact .done i
  | @step i k hdedent hindent hrest ih =>
    refine .step hdedent (fun hkind hopens => hindent hkind ?_) (ih fun m him => heq m (by omega))
    exact (heq i (Nat.le_refl i) hrest.le).2 hopens
  | @block i j k hindent hopens hinner hdedent hrest ihinner ihrest =>
    have hij := hinner.le
    have hjk := hrest.le
    exact .block hindent ((heq i (Nat.le_refl i) (by omega)).1 hopens)
      (ihinner fun m him hmj => heq m (by omega) (by omega)) hdedent
      (ihrest fun m hjm => heq m (by omega))

/-- Tokens that open and close no blocks are a nest. -/
theorem of_plain (hik : i ≤ k)
    (h : ∀ m t, i ≤ m → m < k → T[m]? = some t → ¬ t.IsBlockMark) : Nests T opens i k := by
  induction k, hik using Nat.le_induction with
  | base => exact .done i
  | succ k hik ih =>
    have hlast : ∀ kind, kindAt T k = some kind → kind ≠ .indent ∧ kind ≠ .dedent := by
      intro kind hkind
      obtain ⟨t, ht, rfl⟩ := kindAt_eq_some.1 hkind
      exact not_or.1 (h k t hik (Nat.lt_succ_self k) ht)
    exact (ih fun m t him hmk => h m t him (by omega)).trans
      (.step (fun hkind => (hlast _ hkind).2 rfl) (fun hkind => absurd rfl (hlast _ hkind).1)
        (.done (k + 1)))

/-- What opens a block stands before its indentation. -/
theorem of_opening {h m : Nat} (hopen : Opening T h m) : Nests T opens h m := by
  have hstep : ∀ {i k kind}, kindAt T i = some kind → kind ≠ .indent → kind ≠ .dedent →
      Nests T opens (i + 1) k → Nests T opens i k := by
    intro i k kind hkind hindent hdedent hrest
    refine .step (fun h => hdedent ?_) (fun h => absurd ?_ hindent) hrest
    · exact Option.some.inj (hkind.symm.trans h)
    · exact Option.some.inj (hkind.symm.trans h)
  cases hopen with
  | colon hcolon hline hindent =>
    exact hstep hcolon (by decide) (by decide) (hstep hline (by decide) (by decide) (.done _))
  | bare hline hindent => exact hstep hline (by decide) (by decide) (.done _)

/-- Where a block is closed does not depend on what comes behind. -/
theorem unique (h : Nests T opens i j) (hj : kindAt T j = some .dedent)
    (h' : Nests T opens' i k) (hk : kindAt T k = some .dedent)
    (heq : ∀ m, i ≤ m → m < j → kindAt T m = some .indent → (opens m ↔ opens' m)) : j = k := by
  induction h generalizing k with
  | done i =>
    cases h' with
    | done => rfl
    | step hdedent hindent hrest => exact absurd hj hdedent
    | block hindent hopens hinner hdedent hrest => cases hindent.symm.trans hj
  | @step i j hdedent hindent hrest ih =>
    have hij := hrest.le
    cases h' with
    | done => exact absurd hk hdedent
    | step hdedent' hindent' hrest' => exact ih hj hrest' hk fun m him => heq m (by omega)
    | block hindent' hopens' hinner' hdedent' hrest' =>
      exact absurd ((heq i (Nat.le_refl i) hij hindent').2 hopens') (hindent hindent')
  | @block i l j hindent hopens hinner hdedent hrest ihinner ihrest =>
    have hil := hinner.le
    have hlj := hrest.le
    cases h' with
    | done => cases hindent.symm.trans hk
    | step hdedent' hindent' hrest' =>
      exact absurd ((heq i (Nat.le_refl i) (by omega) hindent).1 hopens) (hindent' hindent)
    | block hindent' hopens' hinner' hdedent' hrest' =>
      obtain rfl := ihinner hdedent hinner' hdedent' fun m him hml => heq m (by omega) (by omega)
      exact ihrest hj hrest' hk fun m hlm => heq m (by omega)

/-- Without its first item a list still ends as before, if it ended with one item more. -/
theorem suffix_tail_of_cons {α : Type} {a : α} {l m : List α} (h : a :: l <:+ m) :
    l <:+ m.tail := by
  obtain ⟨before, rfl⟩ := h
  cases before with
  | nil => exact List.suffix_refl l
  | cons b before => exact (List.suffix_cons a l).trans (List.suffix_append before _)

/-- The open blocks after one more token. -/
theorem openWidths_take_succ {t : Token} (ht : T[i]? = some t) :
    openWidths (T.take (i + 1)) = widthsAfter (openWidths (T.take i)) t := by
  rw [List.take_add_one, ht, Option.toList_some, openWidths_append_singleton]

/-- The open blocks after a token that neither opens nor closes one. -/
theorem openWidths_take_succ_of_ne (hindent : kindAt T i ≠ some .indent)
    (hdedent : kindAt T i ≠ some .dedent) :
    openWidths (T.take (i + 1)) = openWidths (T.take i) := by
  cases ht : T[i]? with
  | none => rw [List.take_add_one, ht, Option.toList_none, List.append_nil]
  | some t =>
    rw [openWidths_take_succ ht, widthsAfter_of_not_isBlockMark]
    rintro (hkind | hkind)
    · exact hindent (kindAt_eq_some.2 ⟨t, ht, hkind⟩)
    · exact hdedent (kindAt_eq_some.2 ⟨t, ht, hkind⟩)

/-- The open blocks after an indentation. -/
theorem openWidths_take_succ_of_indent (hindent : kindAt T i = some .indent) :
    ∃ amount, openWidths (T.take (i + 1)) = amount :: openWidths (T.take i) := by
  obtain ⟨t, ht, hkind⟩ := kindAt_eq_some.1 hindent
  rw [openWidths_take_succ ht]
  exact widthsAfter_of_indent hkind _

/-- The open blocks after a dedentation. -/
theorem openWidths_take_succ_of_dedent (hdedent : kindAt T i = some .dedent) :
    openWidths (T.take (i + 1)) = (openWidths (T.take i)).tail := by
  obtain ⟨t, ht, hkind⟩ := kindAt_eq_some.1 hdedent
  rw [openWidths_take_succ ht, widthsAfter_of_dedent hkind]

/-- Blocks that are open where a nest begins stay open up to where it ends. -/
theorem openWidths_suffix (h : Nests T opens i k) {j : Nat} (hij : i ≤ j) (hjk : j ≤ k) :
    openWidths (T.take i) <:+ openWidths (T.take j) := by
  induction h generalizing j with
  | done i =>
    obtain rfl := Nat.le_antisymm hij hjk
    exact List.suffix_refl _
  | @step i k hdedent hindent hrest ih =>
    rcases Nat.eq_or_lt_of_le hij with rfl | hlt
    · exact List.suffix_refl _
    · refine List.IsSuffix.trans ?_ (ih hlt hjk)
      by_cases hkind : kindAt T i = some .indent
      · obtain ⟨amount, hwidths⟩ := openWidths_take_succ_of_indent hkind
        rw [hwidths]
        exact List.suffix_cons _ _
      · exact openWidths_take_succ_of_ne hkind hdedent ▸ List.suffix_refl _
  | @block i l k hindent hopens hinner hdedent hrest ihinner ihrest =>
    obtain ⟨amount, hwidths⟩ := openWidths_take_succ_of_indent hindent
    rw [hwidths] at ihinner
    rcases Nat.eq_or_lt_of_le hij with rfl | hlt
    · exact List.suffix_refl _
    rcases Nat.lt_or_ge l j with hlj | hjl
    · refine List.IsSuffix.trans ?_ (ihrest hlj hjk)
      rw [openWidths_take_succ_of_dedent hdedent]
      exact suffix_tail_of_cons (ihinner hinner.le (Nat.le_refl l))
    · exact (List.suffix_cons amount _).trans (ihinner hlt hjl)

/-- If all indentations open blocks, just the blocks that are open where a nest begins are open
where it ends. -/
theorem openWidths_eq (h : Nests T (fun _ => True) i k) :
    openWidths (T.take k) = openWidths (T.take i) := by
  induction h with
  | done i => rfl
  | step hdedent hindent hrest ih =>
    rw [ih, openWidths_take_succ_of_ne (fun hkind => hindent hkind trivial) hdedent]
  | block hindent hopens hinner hdedent hrest ihinner ihrest =>
    obtain ⟨amount, hwidths⟩ := openWidths_take_succ_of_indent hindent
    rw [ihrest, openWidths_take_succ_of_dedent hdedent, ihinner, hwidths, List.tail_cons]

end Nests

/-- A block is closed at one place only, if the same indentations open blocks within it. -/
theorem Closes.unique {T : List Token} {opens opens' : Nat → Prop} {m e e' : Nat}
    (h : Closes T opens m e) (h' : Closes T opens' m e')
    (heq : ∀ j, m < j → j < e → kindAt T j = some .indent → (opens j ↔ opens' j)) : e = e' :=
  h.nests.unique h.dedent h'.nests h'.dedent heq

/-- A block is closed by the dedentation that matches its indentation at the latest. -/
theorem Closes.le {T : List Token} {opens : Nat → Prop} {k e m : Nat}
    (h : Closes T opens k e) (hmatch : Closes T (fun _ => True) k m)
    (hindent : kindAt T k = some .indent) : e ≤ m := by
  by_contra hlt
  obtain ⟨amount, hwidths⟩ := Nests.openWidths_take_succ_of_indent hindent
  have hkm := hmatch.nests.le
  have hsuffix := h.nests.openWidths_suffix (show k + 1 ≤ m + 1 by omega) (by omega)
  rw [Nests.openWidths_take_succ_of_dedent hmatch.dedent, hmatch.nests.openWidths_eq, hwidths,
    List.tail_cons] at hsuffix
  have hlength := hsuffix.length_le
  rw [List.length_cons] at hlength
  omega

namespace Tape

variable {length m k : Nat} {T : List Token} {opens : Nat → Prop}

/-- The end of the stream is not within a block. -/
theorem nests_ne_end (hT : Tape length T) (hindent : kindAt T m = some .indent)
    (h : Nests T opens (m + 1) k) {t : Token} (ht : T[k]? = some t) : t.kind ≠ .endOfStream := by
  intro hkind
  have hlast : k + 1 = T.length := by
    by_contra hne
    obtain ⟨hk, -⟩ := List.getElem?_eq_some_iff.1 ht
    exact hT.ne_endOfStream ht (by omega) hkind
  have hplain : ∀ kind, kind ≠ .endOfStream → kindAt T k ≠ some kind := fun kind hne hkind' =>
    hne (Option.some.inj (hkind'.symm.trans (kindAt_eq_some.2 ⟨t, ht, hkind⟩)))
  have hend : openWidths (T.take k) = [] := by
    rw [← hT.closed, ← Nests.openWidths_take_succ_of_ne (hplain _ (by decide))
      (hplain _ (by decide)), hlast, List.take_length]
  have hsuffix := h.openWidths_suffix h.le (Nat.le_refl k)
  obtain ⟨amount, hwidths⟩ := Nests.openWidths_take_succ_of_indent hindent
  rw [hend, List.suffix_nil, hwidths] at hsuffix
  cases hsuffix

/-- Where a block is open, a dedentation follows that closes it, and up to which all others are
closed. -/
theorem exists_nests (hT : Tape length T) (i : Nat) (hi : openWidths (T.take i) ≠ []) :
    ∃ m, Nests T (fun _ => True) i m ∧ kindAt T m = some .dedent := by
  induction hn : T.length - i using Nat.strong_induction_on generalizing i with
  | _ n ih =>
    have hlt : i < T.length := by
      by_contra hge
      rw [List.take_of_length_le (Nat.le_of_not_lt hge), hT.closed] at hi
      exact hi rfl
    -- What is open here is open behind a nest, from where the dedentation is found.
    have hgo : ∀ j, Nests T (fun _ => True) i j → i < j →
        ∃ m, Nests T (fun _ => True) i m ∧ kindAt T m = some .dedent := by
      intro j hj hij
      have hopen : openWidths (T.take j) ≠ [] := fun hnil =>
        hi (List.suffix_nil.1 (hnil ▸ hj.openWidths_suffix hj.le (Nat.le_refl j)))
      obtain ⟨m, hm, hclosed⟩ := ih _ (by omega) j hopen rfl
      exact ⟨m, hj.trans hm, hclosed⟩
    by_cases hdedent : kindAt T i = some .dedent
    · exact ⟨i, .done i, hdedent⟩
    by_cases hindent : kindAt T i = some .indent
    · obtain ⟨amount, hwidths⟩ := Nests.openWidths_take_succ_of_indent hindent
      have hopen : openWidths (T.take (i + 1)) ≠ [] := hwidths ▸ List.cons_ne_nil _ _
      obtain ⟨j, hj, hclosed⟩ := ih _ (by omega) (i + 1) hopen rfl
      have hij := hj.le
      exact hgo (j + 1) (.block hindent trivial hj hclosed (.done _)) (by omega)
    · exact hgo (i + 1) (.step hdedent (fun h => absurd h hindent) (.done _)) (Nat.lt_succ_self i)

/-- The indentations and dedentations of a text match. -/
theorem exists_closes (hT : Tape length T) (hindent : kindAt T k = some .indent) :
    ∃ m, Closes T (fun _ => True) k m := by
  obtain ⟨amount, hwidths⟩ := Nests.openWidths_take_succ_of_indent hindent
  obtain ⟨m, hm, hclosed⟩ := hT.exists_nests (k + 1) (hwidths ▸ List.cons_ne_nil _ _)
  exact ⟨m, hm, hclosed⟩

end Tape

end TypeProbe
