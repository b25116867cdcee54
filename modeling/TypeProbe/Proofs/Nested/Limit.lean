import TypeProbe.Proofs.Faults
import TypeProbe.Proofs.Joined.Parts
import TypeProbe.Proofs.Nested.Lines

/-!
# The limit of nesting

Each opening parenthesis and each sign nests what comes behind it one deeper, and so does the number
in the end. The limit is therefore reached by as many constructs as it says, and by no fewer
(`ParsedText.ofText_nested`).

Below the limit the words of a line are read as an expression, without a fault. At the limit the
parser breaks off, which leaves one node for all that is left of the line, and every construct that
is open goes on from the end of the line: a sign takes the node as its operand, and a parenthesis
misses the closing one. Neither adds another such node (`Prefix.breaks_words`), so there is one on
the line. What comes behind the line is read as it is alone, as it is behind all lines without
blocks.
-/

open TypeProbe.Parser

namespace TypeProbe

/-! ## Below the limit -/

namespace Prefix

/-- The words open an expression with a sign or an atom. -/
theorem opensAt_words (ps : List Prefix) (ws : List Word) :
    OpensAt signLevel (ps.map word ++ .integer 1 :: ws) := by
  cases ps with
  | nil => exact ⟨_, _, rfl, atomLevel, rfl, by decide⟩
  | cons p ps =>
    cases p with
    | parenthesis => exact ⟨_, _, rfl, atomLevel, rfl, by decide⟩
    | sign s => exact ⟨_, _, rfl, signLevel, if_pos s.isSign, Nat.le_refl _⟩

/-- The words can be written, and none of them names an expression. -/
theorem spelled_words (ps : List Prefix) :
    ∀ w ∈ words ps, w.IsSpelled ∧ w.lexeme ≠ .operator .walrus :=
  fun _ hw => (isPart_of_mem (eq_closing_of_mem_closings ps) hw).spelled

/-- Below the limit the words are read as their expression. -/
theorem isRead_words (ps : List Prefix) :
    (expression ps).IsRead signLevel (words ps) ps.length := by
  induction ps with
  | nil =>
    exact (Expression.isRead_integer 1).down (Nat.le_refl _)
      ⟨_, _, rfl, atomLevel, rfl, Nat.le_refl _⟩ (spelled_words []) (by decide)
  | cons p ps ih =>
    cases p with
    | parenthesis =>
      have hopens : OpensAt signLevel (words ps) := opensAt_words ps _
      have hwhole := ih.down (by decide) hopens (spelled_words ps) (Nat.zero_le _)
      have hatom := hwhole.enclosed (hopens.mono (Nat.zero_le _))
      rw [← words_parenthesis] at hatom
      exact hatom.down (Nat.le_refl _) ⟨_, _, rfl, atomLevel, rfl, Nat.le_refl _⟩
        (spelled_words (.parenthesis :: ps)) (by decide)
    | sign s => exact Expression.isRead_signed s ih (opensAt_words ps _)

end Prefix

/-! ## At the limit -/

/-- The category of a node says that the nesting is too deep. -/
def Arena.TooDeep (a : Arena) (i : NodeId) : Prop :=
  ∃ child, a.form? i = some (.error .maxDepthExceeded child)

namespace Arena

variable {a : Arena} {start stop : Nat} {i : NodeId}

/-- The id of the next node is none of a node. -/
theorem not_tooDeep_size (a : Arena) : ¬ a.TooDeep a.size := by
  rintro ⟨child, hform⟩
  exact Nat.lt_irrefl _ (lt_size_of_form? hform)

/-- A node that does not say so may be added. -/
theorem tooDeep_add {form : Form} (hform : ∀ child, form ≠ .error .maxDepthExceeded child) :
    (a.add start stop form).2.TooDeep i ↔ a.TooDeep i := by
  unfold TooDeep
  rw [form?_add]
  split
  · rename_i hi
    subst hi
    constructor
    · rintro ⟨child, hsome⟩
      exact absurd (Option.some.inj hsome) (hform child)
    · exact fun h => absurd h (not_tooDeep_size a)
  · rfl

/-- A node that says so is one more. -/
theorem tooDeep_add_error {child : Option NodeId} :
    (a.add start stop (.error .maxDepthExceeded child)).2.TooDeep i ↔ i = a.size ∨ a.TooDeep i := by
  unfold TooDeep
  rw [form?_add]
  split
  · rename_i hi
    exact ⟨fun _ => .inl hi, fun _ => ⟨child, rfl⟩⟩
  · rename_i hi
    exact ⟨.inr, fun h => h.resolve_left hi⟩

/-- Parentheses do not change what nodes say so. -/
theorem tooDeep_widened {j : NodeId} : (a.widened j start stop).TooDeep i ↔ a.TooDeep i := by
  unfold TooDeep
  rw [form?_widened]
  split
  · constructor
    · rintro ⟨child, hsome⟩
      obtain ⟨form, hform, hparenthesize⟩ := Option.map_eq_some_iff.1 hsome
      refine ⟨child, ?_⟩
      rw [hform]
      cases form <;> first | exact congrArg some hparenthesize | cases hparenthesize
    · rintro ⟨child, hform⟩
      exact ⟨child, by rw [hform]; rfl⟩
  · rfl

end Arena

/-- A parser has gone on to where some lexemes are left, and no node of its says that the nesting is
too deep. -/
structure ParseState.Spares (s s' : ParseState) (left : List Lexeme) : Prop where
  /-- What is left. -/
  upcoming : s'.upcoming = left
  /-- The nested expressions have been left. -/
  depth : s'.depth = s.depth
  /-- No more nodes say so. -/
  tooDeep : ∀ i, s'.arena.TooDeep i ↔ s.arena.TooDeep i

/-- A parser has gone on to where some lexemes are left, and has broken off once: one new node says
that the nesting is too deep. -/
structure ParseState.BreaksTo (s s' : ParseState) (left : List Lexeme) : Prop where
  /-- What is left. -/
  upcoming : s'.upcoming = left
  /-- The nested expressions have been left. -/
  depth : s'.depth = s.depth
  /-- One more node says so. -/
  tooDeep : ∃ id, ¬ s.arena.TooDeep id ∧ ∀ i, s'.arena.TooDeep i ↔ i = id ∨ s.arena.TooDeep i

namespace ParseState

variable {s s' s'' : ParseState} {left mid : List Lexeme} {x y : Lexeme}

/-- A parser that spares the nodes may go on once more. -/
theorem Spares.trans (h : s.Spares s' mid) (h' : s'.Spares s'' left) : s.Spares s'' left :=
  ⟨h'.upcoming, h'.depth.trans h.depth, fun i => (h'.tooDeep i).trans (h.tooDeep i)⟩

/-- Before it breaks off a parser may spare the nodes. -/
theorem BreaksTo.after (h : s.Spares s' mid) (h' : s'.BreaksTo s'' left) :
    s.BreaksTo s'' left := by
  obtain ⟨id, hnew, hall⟩ := h'.tooDeep
  refine ⟨h'.upcoming, h'.depth.trans h.depth, id, fun hid => hnew ((h.tooDeep id).2 hid), ?_⟩
  exact fun i => (hall i).trans (or_congr_right (h.tooDeep i))

/-- Once it has broken off a parser may spare the nodes. -/
theorem BreaksTo.before (h : s.BreaksTo s' mid) (h' : s'.Spares s'' left) :
    s.BreaksTo s'' left := by
  obtain ⟨id, hnew, hall⟩ := h.tooDeep
  exact ⟨h'.upcoming, h'.depth.trans h.depth, id, hnew, fun i => (h'.tooDeep i).trans (hall i)⟩

/-- Taking a token spares the nodes. -/
theorem spares_advanced (hs : s.upcoming = x :: y :: left) (hx : x ≠ .endOfStream) :
    s.Spares (advanced s) (y :: left) :=
  have hgoes := s.goesTo_advanced hs hx
  ⟨hgoes.upcoming, hgoes.depth, fun i => by rw [arena_advanced]⟩

/-- A new node spares the others. -/
theorem spares_add (hs : s.upcoming = left) {start stop : Nat} {form : Form}
    (hform : ∀ child, form ≠ .error .maxDepthExceeded child) :
    s.Spares { s with arena := (s.arena.add start stop form).2 } left :=
  ⟨hs, rfl, fun _ => Arena.tooDeep_add hform⟩

/-- A fault spares the nodes. -/
theorem spares_fault (hs : s.upcoming = left) (f : SyntaxFault) :
    s.Spares ((fault f).run s).2 left := by
  show s.Spares (if _ then s else _) left
  split <;> exact ⟨hs, rfl, fun _ => Iff.rfl⟩

/-- What is left of a line is passed over up to its end. -/
theorem spares_skippedLine {kind : NewLineKind} {xs : List Lexeme} {fuel : Nat}
    (hs : s.upcoming = xs ++ .newLine kind :: left) (hxs : ∀ x ∈ xs, endsLine x.kind = false)
    (hfuel : xs.length ≤ fuel) : s.Spares (skippedLine fuel s) (.newLine kind :: left) := by
  induction xs generalizing s fuel with
  | nil =>
    have hends : endsLine s.current.kind = true := by
      rw [Token.kind, s.lexeme_current hs]
      rfl
    rw [skippedLine_of_endsLine hends]
    exact ⟨hs, rfl, fun _ => Iff.rfl⟩
  | cons x xs ih =>
    obtain ⟨fuel, rfl⟩ := Nat.exists_eq_add_of_le' (Nat.le_trans (Nat.le_add_left 1 _) hfuel)
    have hx := hxs x List.mem_cons_self
    have hgoes : ¬ endsLine s.current.kind = true := by
      rw [Token.kind, s.lexeme_current hs]
      exact Bool.eq_false_iff.1 hx
    have hne : x ≠ .endOfStream := by
      rintro rfl
      cases hx
    obtain ⟨y, more, hmore⟩ : ∃ y more, xs ++ .newLine kind :: left = y :: more :=
      List.exists_cons_of_ne_nil (by simp)
    have hstep := spares_advanced (hs.trans (congrArg (x :: ·) hmore)) hne
    rw [skippedLine_succ hgoes]
    exact hstep.trans (ih (hstep.upcoming.trans hmore.symm)
      (fun z hz => hxs z (List.mem_cons_of_mem _ hz)) (Nat.le_of_succ_le_succ hfuel))

end ParseState

/-! ### Parsers -/

/-- A parser goes on to where some lexemes are left and spares the nodes. -/
def Parser.Sparing {α : Type} (p : Parser α) (s : ParseState) (left : List Lexeme) : Prop :=
  ∃ a s', p.run s = (a, s') ∧ s.Spares s' left

/-- A parser breaks off once on its way to where some lexemes are left. -/
def Parser.Breaks (p : Parser NodeId) (s : ParseState) (left : List Lexeme) : Prop :=
  ∃ id s', p.run s = (id, s') ∧ s.BreaksTo s' left

namespace Parser

variable {α β : Type} {p : Parser α} {f : α → Parser β} {s : ParseState} {left mid : List Lexeme}

/-- Two parsers after each other spare the nodes if both do. -/
theorem Sparing.bind (hp : Sparing p s mid)
    (hf : ∀ a s', s'.upcoming = mid → Sparing (f a) s' left) : Sparing (p >>= f) s left := by
  obtain ⟨a, s', hrun, hspares⟩ := hp
  obtain ⟨b, s'', hrun', hspares'⟩ := hf a s' hspares.upcoming
  exact ⟨b, s'', (run_bind_of hrun).trans hrun', hspares.trans hspares'⟩

/-- A parser that spares the nodes may follow a look at the state. -/
theorem Sparing.look {a : α} (hp : p.run s = (a, s)) (hf : Sparing (f a) s left) :
    Sparing (p >>= f) s left := by
  obtain ⟨b, s', hrun, hspares⟩ := hf
  exact ⟨b, s', (run_bind_of hp).trans hrun, hspares⟩

/-- A fault spares the nodes. -/
theorem sparing_fault (hs : s.upcoming = left) (f : SyntaxFault) : Sparing (fault f) s left :=
  ⟨_, _, rfl, ParseState.spares_fault hs f⟩

/-- At the end of a line nothing is passed over. -/
theorem sparing_skip {kind : NewLineKind} (hs : s.upcoming = .newLine kind :: left) :
    Sparing skipToEndOfLine s (.newLine kind :: left) :=
  ⟨_, _, rfl, @ParseState.spares_skippedLine _ _ kind [] _ hs nofun (Nat.zero_le _)⟩

/-- An error of another category spares the nodes. -/
theorem sparing_errorNode (hs : s.upcoming = left) {category : ErrorCategory}
    (hcategory : category ≠ .maxDepthExceeded) (child : Option NodeId) :
    Sparing (errorNode category child) s left :=
  ⟨_, _, rfl, ParseState.spares_add hs fun _ heq => hcategory (Form.error.inj heq).1⟩

/-- A parser that breaks off may be followed by one that spares the nodes. -/
theorem Breaks.bind {p : Parser NodeId} {f : NodeId → Parser NodeId} (hp : Breaks p s mid)
    (hf : ∀ id s', s'.upcoming = mid → Sparing (f id) s' left) : Breaks (p >>= f) s left := by
  obtain ⟨id, s', hrun, hbreaks⟩ := hp
  obtain ⟨id', s'', hrun', hspares⟩ := hf id s' hbreaks.upcoming
  exact ⟨id', s'', (run_bind_of hrun).trans hrun', hbreaks.before hspares⟩

/-- A parser that breaks off may follow a look at the state. -/
theorem Breaks.look {f : α → Parser NodeId} {a : α} (hp : p.run s = (a, s))
    (hf : Breaks (f a) s left) : Breaks (p >>= f) s left := by
  obtain ⟨id, s', hrun, hbreaks⟩ := hf
  exact ⟨id, s', (run_bind_of hp).trans hrun, hbreaks⟩

/-- A parser that breaks off may follow the taking of a token. -/
theorem Breaks.advance {f : Token → Parser NodeId} {x y : Lexeme} {rest : List Lexeme}
    (hs : s.upcoming = x :: y :: rest) (hx : x ≠ .endOfStream)
    (hf : Breaks (f s.current) (advanced s) left) : Breaks (Parser.advance >>= f) s left := by
  obtain ⟨id, s', hrun, hbreaks⟩ := hf
  exact ⟨id, s', (run_bind_of (x := Parser.advance) rfl).trans hrun,
    .after (ParseState.spares_advanced hs hx) hbreaks⟩

end Parser

namespace Grammar

variable {call : Rules} {s : ParseState} {left rest : List Lexeme} {y z : Lexeme}
variable {inner : Parser NodeId} {kind : NewLineKind}

/-- At the limit the rest of the line is passed over, and a node stands for it. -/
theorem run_nested_of_ge (hlimit : depthLimit ≤ s.depth) :
    let s₁ := ((fault .tooDeep).run s).2
    let s₂ := skippedLine s₁.following.length s₁
    (nested inner).run s = (s₂.arena.size, { s₂ with
      arena := (s₂.arena.add s₁.current.start (max s₂.previousStop s₁.current.start)
        (.error .maxDepthExceeded none)).2 }) := by
  unfold nested
  rw [StateT.run_bind]
  show StateT.run (if depthLimit ≤ s.depth then _ else _) s = _
  rw [if_pos hlimit]
  rfl

/-- At the limit the parser breaks off; below, it does if it does further in. -/
theorem breaks_nested {xs : List Lexeme} (hs : s.upcoming = xs ++ .newLine kind :: left)
    (hxs : ∀ x ∈ xs, endsLine x.kind = false)
    (h : s.depth < depthLimit → Breaks inner s.deeper (.newLine kind :: left)) :
    Breaks (nested inner) s (.newLine kind :: left) := by
  rcases Nat.lt_or_ge s.depth depthLimit with hbelow | hlimit
  · obtain ⟨id, s', hrun, hbreaks⟩ := h hbelow
    refine ⟨id, _, run_nested hbelow hrun, hbreaks.upcoming, ?_, hbreaks.tooDeep⟩
    show s'.depth - 1 = s.depth
    rw [hbreaks.depth]
    rfl
  · have hfault := ParseState.spares_fault hs .tooDeep
    have hlength : xs.length ≤ ((fault .tooDeep).run s).2.following.length := by
      have hcount := congrArg List.length hfault.upcoming
      simp only [ParseState.upcoming, List.length_map, List.length_cons,
        List.length_append] at hcount
      omega
    have hskipped := hfault.trans (ParseState.spares_skippedLine hfault.upcoming hxs hlength)
    refine ⟨_, _, run_nested_of_ge hlimit, .after hskipped ⟨hskipped.upcoming, rfl, ?_⟩⟩
    exact ⟨_, Arena.not_tooDeep_size _, fun i => Arena.tooDeep_add_error⟩

/-- A sign takes what is left of the line as its operand. -/
theorem breaks_sign (sign : Sign) (hs : s.upcoming = .operator sign.operator :: y :: rest)
    (h : Breaks (nested (call .factor)) (advanced s) left) : Breaks (factor call) s left := by
  refine .look (p := peek) rfl ?_
  rw [operator?_eq_some_iff.2 (s.lexeme_current hs)]
  simp only [sign.isSign]
  refine .advance hs nofun (.bind h fun id s' hs' => ?_)
  exact ⟨_, _, rfl, ParseState.spares_add hs' nofun⟩

/-- A parenthesis misses the closing one at the end of the line. -/
theorem breaks_parenthesis (hs : s.upcoming = .openParenthesis :: y :: rest) (hy : y.Opens 0)
    (h : Breaks (call .test) (advanced s) (.newLine kind :: left)) :
    Breaks (atom call) s (.newLine kind :: left) := by
  have hcontent : Breaks (parenthesizedContent call s.current) (advanced s)
      (.newLine kind :: left) := by
    obtain ⟨id, s', hrun, hbreaks⟩ := h
    refine ⟨id, s', ?_, hbreaks⟩
    exact run_parenthesizedContent s.current (ParseState.spares_advanced hs nofun).upcoming hy
      hbreaks.upcoming (by simp) (by simp) (by simp [Lexeme.kind]) hrun
  refine .look (p := peek) rfl ?_
  simp only [s.lexeme_current hs]
  refine .advance hs nofun (.bind hcontent fun id s₁ hs₁ => ?_)
  refine .look (run_took hs₁ (by simp [Lexeme.kind])) (.look (p := previousStop) rfl ?_)
  -- The parenthesis is noted although the closing one is missing.
  refine .bind ⟨_, _, rfl, hs₁, rfl, fun _ => Arena.tooDeep_widened⟩ fun _ s₂ hs₂ => ?_
  refine .bind (sparing_fault hs₂ (.spelling ")")) fun _ s₃ hs₃ => ?_
  exact .bind (sparing_skip hs₃) fun _ s₄ hs₄ => sparing_errorNode hs₄ (by decide) (some id)

/-- An atom that breaks off has no calls, subscripts or members. -/
theorem breaks_atomExpression (h : Breaks (atom call) s (.newLine kind :: left)) :
    Breaks (atomExpression call) s (.newLine kind :: left) := by
  obtain ⟨id, s', hrun, hbreaks⟩ := h
  exact ⟨id, s', run_atomExpression hbreaks.upcoming (Nat.zero_le _) hrun, hbreaks⟩

/-- At the end of a line the levels below break off if one does. -/
theorem breaks_level {n : Nat} (hn : n ≤ atomLevel) (hs : s.upcoming = y :: z :: rest)
    (hy : y.Opens n) (hz : z ≠ .operator .walrus)
    (h : Breaks (level call n) s (.newLine kind :: left)) {m : Nat} (hm : m ≤ n) :
    Breaks (level call m) s (.newLine kind :: left) := by
  obtain ⟨id, s', hrun, hbreaks⟩ := h
  exact ⟨id, s', run_level_of_le hn hs hy hz hbreaks.upcoming hrun hm, hbreaks⟩

end Grammar

namespace Prefix

variable {kind : NewLineKind} {left : List Lexeme} {ws : List Word} {s : ParseState}

/-- The words stay on their line. -/
theorem staysOnLine (hws : ∀ w ∈ ws, w = .closing) (ps : List Prefix) :
    ∀ x ∈ (ps.map word ++ .integer 1 :: ws).map Word.lexeme, endsLine x.kind = false := by
  intro x hx
  obtain ⟨w, hw, rfl⟩ := List.mem_map.1 hx
  exact (isPart_of_mem hws hw).staysOnLine

/-- In front of the words the levels below break off if one does that they open. -/
theorem breaks_down (hws : ∀ w ∈ ws, w = .closing) {ps : List Prefix}
    (hs : s.upcoming = (ps.map word ++ .integer 1 :: ws).map Word.lexeme ++ .newLine kind :: left)
    {call : Rules} {n : Nat} (hn : n ≤ atomLevel)
    (hopens : OpensAt n (ps.map word ++ .integer 1 :: ws))
    (h : Breaks (Grammar.level call n) s (.newLine kind :: left)) {m : Nat} (hm : m ≤ n) :
    Breaks (Grammar.level call m) s (.newLine kind :: left) := by
  obtain ⟨y, z, more, hupcoming, hy, hz⟩ := Expression.exists_upcoming hs hopens
    (fun w hw => (isPart_of_mem hws hw).spelled) (Nat.zero_le _)
  exact Grammar.breaks_level hn hupcoming hy hz h hm

/-- As many constructs as the limit allows, or more, break off once. -/
theorem breaks_words (hws : ∀ w ∈ ws, w = .closing) {fuel : Nat} (ps : List Prefix)
    (hs : s.upcoming = (ps.map word ++ .integer 1 :: ws).map Word.lexeme ++ .newLine kind :: left)
    (hdepth : depthLimit ≤ s.depth + ps.length) (hfuel : 2 * ps.length ≤ fuel) :
    Breaks (Grammar.level (Rule.parse fuel) signLevel) s (.newLine kind :: left) := by
  induction ps generalizing s fuel with
  | nil =>
    refine breaks_down hws hs (Nat.le_refl _) ⟨_, _, rfl, atomLevel, rfl, Nat.le_refl _⟩ ?_
      (by decide)
    -- Only the number is left, and the limit has been reached.
    refine Grammar.breaks_nested hs (staysOnLine hws []) fun hbelow => ?_
    exact absurd hdepth (Nat.not_le.2 hbelow)
  | cons p ps ih =>
    rw [List.length_cons] at hdepth hfuel
    have hrest := staysOnLine hws ps
    have hopens := (opensAt_words ps ws).mono (Nat.zero_le signLevel)
    -- What comes behind the construct is read one level further in.
    have hbehind : ∀ {t : ParseState} {fuel : Nat}, t.upcoming =
        (ps.map word ++ .integer 1 :: ws).map Word.lexeme ++ .newLine kind :: left →
        t.depth = s.depth + 1 → 2 * ps.length ≤ fuel →
        Breaks (Grammar.level (Rule.parse fuel) signLevel) t (.newLine kind :: left) :=
      fun ht hdeeper henough => ih ht (by omega) henough
    obtain ⟨w, more, hmore, hw⟩ := hopens
    cases p with
    | parenthesis =>
      refine breaks_down hws hs (Nat.le_refl _) ⟨_, _, rfl, atomLevel, rfl, Nat.le_refl _⟩ ?_
        (by decide)
      refine Grammar.breaks_nested hs (staysOnLine hws (.parenthesis :: ps)) fun _ => ?_
      obtain ⟨fuel, rfl⟩ : ∃ f, fuel = f + 2 := ⟨fuel - 2, by omega⟩
      have hdeeper : s.deeper.upcoming = .openParenthesis :: w.lexeme ::
          (more.map Word.lexeme ++ .newLine kind :: left) := by
        refine Eq.trans hs ?_
        rw [List.map_cons, List.cons_append, hmore]
        rfl
      have htaken := ParseState.spares_advanced hdeeper nofun
      have hinner : (advanced s.deeper).upcoming =
          (ps.map word ++ .integer 1 :: ws).map Word.lexeme ++ .newLine kind :: left := by
        rw [htaken.upcoming, hmore]
        rfl
      refine Grammar.breaks_atomExpression (Grammar.breaks_parenthesis hdeeper hw ?_)
      exact breaks_down hws hinner (by decide) (opensAt_words ps ws)
        (hbehind hinner htaken.depth (by omega)) (Nat.zero_le _)
    | sign sign =>
      obtain ⟨fuel, rfl⟩ : ∃ f, fuel = f + 1 := ⟨fuel - 1, by omega⟩
      have hsplit : s.upcoming = .operator sign.operator :: w.lexeme ::
          (more.map Word.lexeme ++ .newLine kind :: left) := by
        refine hs.trans ?_
        rw [List.map_cons, List.cons_append, hmore]
        rfl
      have htaken := ParseState.spares_advanced hsplit nofun
      have hinner : (advanced s).upcoming =
          (ps.map word ++ .integer 1 :: ws).map Word.lexeme ++ .newLine kind :: left := by
        rw [htaken.upcoming, hmore]
        rfl
      refine Grammar.breaks_sign sign hsplit (Grammar.breaks_nested hinner hrest fun _ => ?_)
      exact @hbehind (advanced s).deeper fuel hinner (congrArg (· + 1) htaken.depth) (by omega)

end Prefix

/-! ## Texts -/

namespace ParsedText

variable {ps : List Prefix} {text : String} {kind : NewLineKind}

/-- What the limit does to a text with so many constructs: below it nothing is wrong, and from it on
one node says that the nesting is too deep. -/
structure IsLimited (ps : List Prefix) (p : ParsedText) : Prop where
  /-- Below the limit there is no fault, and no error. -/
  allowed : ps.length < depthLimit →
    p.diagnostics = [] ∧ ∀ i category child, p.arena.form? i ≠ some (.error category child)
  /-- From the limit on there is one node for what is too deep. -/
  limited : depthLimit ≤ ps.length → ∃! i, p.arena.TooDeep i

/-- A text without faults has no errors. -/
theorem form?_ne_error (h : (ofText text).diagnostics = []) (i : NodeId) (category : ErrorCategory)
    (child : Option NodeId) : (ofText text).arena.form? i ≠ some (.error category child) :=
  fun hform => Bool.false_ne_true (standsIn_of_diagnostics h hform).symm

/-- From the limit on one node of the line is too deep. -/
theorem existsUnique_tooDeep (hlimit : depthLimit ≤ ps.length)
    (htext : (Tokens.ofText text.toList).map Token.lexeme =
      (Prefix.words ps).map Word.lexeme ++ [.newLine kind, .endOfStream]) :
    ∃! i, (ofText text).arena.TooDeep i := by
  have hws := Prefix.eq_closing_of_mem_closings ps
  have hs := upcoming_initialState htext (by simp) (byteLength text.toList)
  have hlength := congrArg List.length htext
  simp only [List.length_append, List.length_map, List.length_cons, Prefix.words] at hlength
  generalize htokens : Tokens.ofText text.toList = tokens at *
  have hbreaks : Breaks (Grammar.level (Rule.parse (4 * tokens.length + 14)) 0)
      (initialState (byteLength text.toList) tokens) [.newLine kind, .endOfStream] :=
    Prefix.breaks_down hws hs (by decide) (Prefix.opensAt_words ps _)
      (Prefix.breaks_words hws ps hs (Nat.le_trans hlimit (Nat.le_add_left ..)) (by omega))
      (Nat.zero_le _)
  obtain ⟨id, s', hrun, hcut⟩ := hbreaks
  obtain ⟨w, more, hwords, hw⟩ :=
    (Prefix.opensAt_words ps (Prefix.closings ps)).mono (Nat.zero_le signLevel)
  have hfirst : (initialState (byteLength text.toList) tokens).upcoming =
      w.lexeme :: (more.map Word.lexeme ++ [.newLine kind, .endOfStream]) := by
    rw [hs, Prefix.words, hwords]
    rfl
  have hparse := parseTokens_of_run hfirst hw hrun hcut.upcoming
  -- The line and the root are added to what has been broken off.
  obtain ⟨cut, -, hall⟩ := hcut.tooDeep
  have hempty : ∀ i, ¬ Arena.empty.TooDeep i := by
    rintro i ⟨child, hform⟩
    cases hform
  have hiff : ∀ i, (ofText text).arena.TooDeep i ↔ i = cut := by
    intro i
    simp only [ofText, htokens, hparse]
    rw [Arena.tooDeep_add, Grammar.lineEnded, arena_advanced, Arena.tooDeep_add, hall i]
    · exact or_iff_left (hempty i)
    all_goals
      intro child h
      cases h
  exact ⟨cut, (hiff cut).2 rfl, fun i hi => (hiff i).1 hi⟩

/-- A line of constructs is limited. -/
theorem isLimited_of_lexemes (htext : (Tokens.ofText text.toList).map Token.lexeme =
      (Prefix.words ps).map Word.lexeme ++ [.newLine kind, .endOfStream]) :
    (ofText text).IsLimited ps where
  allowed hbelow := by
    have hopens : OpensAt signLevel (Prefix.words ps) := Prefix.opensAt_words ps _
    have hread := (Prefix.isRead_words ps).down (by decide) hopens (Prefix.spelled_words ps)
      (Nat.zero_le _)
    have hline := isLineOf_of_isRead hread (hopens.mono (Nat.zero_le _)) hbelow htext
    exact ⟨hline.diagnostics, form?_ne_error hline.diagnostics⟩
  limited hlimit := existsUnique_tooDeep hlimit htext

/-- The root of a text is no error, and nothing is behind it. -/
theorem lt_root_of_tooDeep {i : NodeId} (h : (ofText text).arena.TooDeep i) :
    i < (ofText text).root := by
  obtain ⟨hroot, harena, -⟩ := ofText_items text
  rw [harena, Arena.tooDeep_add] at h
  · obtain ⟨child, hform⟩ := h
    rw [hroot]
    exact Arena.lt_size_of_form? hform
  · intro child h
    cases h

/-- In a text that lies in another one the same nodes are too deep. -/
theorem LiesIn.tooDeep {bytes ids : Nat} {a whole : ParsedText} (h : LiesIn bytes ids a whole)
    {i : NodeId} (hi : i < a.root) : whole.arena.TooDeep (i + ids) ↔ a.arena.TooDeep i := by
  unfold Arena.TooDeep
  rw [h.form? hi]
  constructor
  · rintro ⟨child, hsome⟩
    obtain ⟨form, hform, hshift⟩ := Option.map_eq_some_iff.1 hsome
    rw [hform]
    cases form <;> first | cases hshift; done | skip
    rename_i category child'
    obtain ⟨rfl, -⟩ := Form.error.inj hshift
    exact ⟨child', rfl⟩
  · rintro ⟨child, hform⟩
    exact ⟨child.map (· + ids), by rw [hform]; rfl⟩

/-- The nodes of a joined text that are too deep are those of both parts. -/
theorem tooDeep_append {front : String} (h : IsPlain front.toList) (back : String) (i : NodeId) :
    (ofText (front ++ back)).arena.TooDeep i ↔ (ofText front).arena.TooDeep i ∨
      ∃ j, (ofText back).arena.TooDeep j ∧ i = j + (ofText front).root := by
  have hjoins := joins_of_isPlain h back
  have hback := hjoins.back_liesIn (statement_lt h)
  constructor
  · intro hdeep
    rcases Nat.lt_or_ge i (ofText front).root with hlt | hge
    · exact .inl ((hjoins.front_liesIn.tooDeep hlt).1 hdeep)
    · obtain ⟨j, rfl⟩ := Nat.exists_eq_add_of_le' hge
      have hj : j < (ofText back).root := by
        have hbelow := lt_root_of_tooDeep hdeep
        rw [hjoins.root, Nat.add_comm] at hbelow
        exact Nat.lt_of_add_lt_add_left hbelow
      exact .inr ⟨j, (hback.tooDeep hj).1 hdeep, rfl⟩
  · rintro (hdeep | ⟨j, hdeep, rfl⟩)
    · exact (hjoins.front_liesIn.tooDeep (lt_root_of_tooDeep hdeep)).2 hdeep
    · exact (hback.tooDeep (lt_root_of_tooDeep hdeep)).2 hdeep

/-- A text behind the line, none of whose nodes is too deep, adds no such node. -/
theorem existsUnique_tooDeep_append (hlimit : depthLimit ≤ ps.length) {back : String}
    (hback : ∀ i, ¬ (ofText back).arena.TooDeep i) :
    ∃! i, (ofText (Prefix.line ps ++ back)).arena.TooDeep i := by
  obtain ⟨i, hi, hunique⟩ := existsUnique_tooDeep hlimit (Prefix.lexemes_line ps)
  have happend := tooDeep_append (Prefix.isPlain_line ps) back
  refine ⟨i, (happend i).2 (.inl hi), fun j hj => ?_⟩
  rcases (happend j).1 hj with hj | ⟨k, hk, -⟩
  · exact hunique j hj
  · exact absurd hk (hback k)

/-- The line and a text behind it without faults are limited. -/
theorem isLimited_append (ps : List Prefix) {back : String}
    (hback : (ofText back).diagnostics = []) : (ofText (Prefix.line ps ++ back)).IsLimited ps where
  allowed hbelow := by
    have hline := (isLimited_of_lexemes (Prefix.lexemes_line ps)).allowed hbelow
    have hnone : (ofText (Prefix.line ps ++ back)).diagnostics = [] := by
      rw [(joins_of_isPlain (Prefix.isPlain_line ps) back).diagnostics, hline.1, hback]
      rfl
    exact ⟨hnone, form?_ne_error hnone⟩
  limited hlimit := existsUnique_tooDeep_append hlimit fun i hdeep => by
    obtain ⟨child, hform⟩ := hdeep
    exact form?_ne_error hback i _ child hform

/-- The limit of nesting is exact. The number one in some constructs, each an opening parenthesis
that is closed behind it or a sign, is read without a fault if there are fewer constructs than the
limit, and has one node that is too deep if there are as many or more, however it is spaced. Behind
such a line without blanks the same holds of the whole text if nothing is wrong with what follows,
and each line that follows is read as it is alone. -/
theorem ofText_nested (ps : List Prefix) :
    (∀ (text : String) (kind : NewLineKind), (Tokens.ofText text.toList).map Token.lexeme =
        (Prefix.words ps).map Word.lexeme ++ [.newLine kind, .endOfStream] →
        (ofText text).IsLimited ps) ∧
      (∀ back : String,
        ((ofText back).diagnostics = [] → (ofText (Prefix.line ps ++ back)).IsLimited ps) ∧
        (depthLimit ≤ ps.length → (∀ i, ¬ (ofText back).arena.TooDeep i) →
          ∃! i, (ofText (Prefix.line ps ++ back)).arena.TooDeep i)) ∧
      ∀ (before : List String) (l after : String), (∀ k ∈ before, IsPlain k.toList) →
        IsPlain l.toList ∨ after = "" →
        ∃ ids, LiesIn (byteLength (String.join (Prefix.line ps :: before)).toList) ids (ofText l)
          (ofText (String.join (Prefix.line ps :: before) ++ (l ++ after))) := by
  refine ⟨fun text kind => isLimited_of_lexemes, fun back => ⟨isLimited_append ps, fun hlimit =>
    existsUnique_tooDeep_append hlimit⟩, fun before l after hbefore hl => ?_⟩
  refine liesIn_lines ?_ l after hl
  intro k hk
  rcases List.mem_cons.1 hk with rfl | hk
  · exact Prefix.isPlain_line ps
  · exact hbefore k hk

end ParsedText

end TypeProbe
