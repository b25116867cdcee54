import TypeProbe.Proofs.Written.Levels
import TypeProbe.Tree.Parsed

/-!
# Expressions are read as they were written

`Arena.Shows` says that a node of a tree is an expression, up to ids, ranges and the notes about
parentheses. Each construct is read at its own level by what its parts are read by, so an induction
over the expression shows that its words are read as itself (`Expression.isRead_bare`).
-/

open TypeProbe.Parser TypeProbe.Grammar

namespace TypeProbe

/-- A node is an expression, wherever it stands and whether or not parentheses are around it. -/
inductive Arena.Shows (a : Arena) : NodeId → Expression → Prop where
  | name {id : NodeId} {token : Token} {n : Identifier}
    (h : a.form? id = some (.name token n.text)) : a.Shows id (.name n)
  | integer {id : NodeId} {n : Nat}
    (h : a.form? id = some (.number (.ofNat n))) : a.Shows id (.integer n)
  | signed {id i : NodeId} {sign : Sign} {token : Token} {operand : Expression}
    (h : a.form? id = some (.unaryOperation sign.operator token i)) (hoperand : a.Shows i operand) :
    a.Shows id (.signed sign operand)
  | negation {id i : NodeId} {token : Token} {operand : Expression}
    (h : a.form? id = some (.unaryOperation .not token i)) (hoperand : a.Shows i operand) :
    a.Shows id (.negation operand)
  | binary {id i j : NodeId} {op : BinaryOperator} {token : Token} {parenthesized : Bool}
    {left right : Expression}
    (h : a.form? id = some (.binaryOperation op.operator token i j parenthesized))
    (hleft : a.Shows i left) (hright : a.Shows j right) : a.Shows id (.binary op left right)
  | conditional {id i j k : NodeId} {value condition otherwise : Expression}
    (h : a.form? id = some (.ternary i j k)) (hvalue : a.Shows i value)
    (hcondition : a.Shows j condition) (hotherwise : a.Shows k otherwise) :
    a.Shows id (.conditional value condition otherwise)

/-- Nodes that are kept are the expressions that they were. -/
theorem Arena.Shows.keep {a a' : Arena} (hkeeps : a.Keeps a') {id : NodeId} {e : Expression}
    (h : a.Shows id e) : a'.Shows id e := by
  induction h with
  | name h => rcases hkeeps _ _ h with h | h <;> exact .name h
  | integer h => rcases hkeeps _ _ h with h | h <;> exact .integer h
  | signed h _ ih => rcases hkeeps _ _ h with h | h <;> exact .signed h ih
  | negation h _ ih => rcases hkeeps _ _ h with h | h <;> exact .negation h ih
  | binary h _ _ ihl ihr => rcases hkeeps _ _ h with h | h <;> exact .binary h ihl ihr
  | conditional h _ _ _ ihv ihc iho =>
    rcases hkeeps _ _ h with h | h <;> exact .conditional h ihv ihc iho

/-! ## Atoms -/

namespace Grammar

variable {call : Rules} {s s' : ParseState} {left rest : List Lexeme} {x y : Lexeme} {id : NodeId}
variable {Q : NodeId → Arena → Prop}

/-- No call, subscript or member stands where a lexeme goes on with none. -/
theorem run_trailer (id : NodeId) (hs : s.upcoming = x :: left) (hx : x.leftLevel ≤ atomLevel) :
    (trailer call id).run s = (none, s) := by
  have hkind : x.kind ≠ .openParenthesis ∧ x.kind ≠ .openBracket ∧ x.kind ≠ .dot := by
    refine ⟨fun hkind => ?_, fun hkind => ?_, fun hkind => ?_⟩
    all_goals
      cases x <;> cases hkind
      exact absurd hx (by decide)
  unfold trailer
  rw [StateT.run_bind]
  show StateT.run (took .openParenthesis >>= _) s = _
  rw [StateT.run_bind, run_took hs hkind.1]
  show StateT.run (took .openBracket >>= _) s = _
  rw [StateT.run_bind, run_took hs hkind.2.1]
  show StateT.run (took .dot >>= _) s = _
  rw [StateT.run_bind, run_took hs hkind.2.2]
  rfl

/-- An atom is all there is where a lexeme goes on with no call, subscript or member. -/
theorem run_atomExpression (hs' : s'.upcoming = x :: left) (hx : x.leftLevel ≤ atomLevel)
    (h : (atom call).run s = (id, s')) : (atomExpression call).run s = (id, s') := by
  have hstop : (foldMany (id, true) fun p => if p.2 then trailer call p.1 else return none).run s' =
      ((id, true), s') := Folds.run_foldMany (.stop (run_trailer id hs' hx))
  exact (run_bind_of h).trans (run_bind_of hstop)

/-- An atom is read as it is where a lexeme goes on with no call, subscript or member. -/
theorem reads_atomExpression (hx : x.leftLevel ≤ atomLevel) (h : Reads (atom call) s (x :: left) Q) :
    Reads (atomExpression call) s (x :: left) Q := by
  obtain ⟨id, s', hrun, hgoes, hid⟩ := h
  exact ⟨id, s', run_atomExpression hgoes.upcoming hx hrun, hgoes, hid⟩

/-- A name is an atom. -/
theorem reads_name {value : String} (hs : s.upcoming = .identifier value :: x :: left) :
    Reads (atom call) s (x :: left) fun id a => ∃ token, a.form? id = some (.name token value) := by
  refine .look rfl ?_
  simp only [s.lexeme_current hs]
  refine .bind (.advance hs (by simp)) fun token s' hgoes htoken => ?_
  subst htoken
  refine .weaken (.addNode _ _ _ hgoes.upcoming) fun id a h => ⟨s.current, ?_⟩
  rw [h.1, s.lexeme_current hs]

/-- A number is an atom. -/
theorem reads_number {literal : NumberLiteral} (hs : s.upcoming = .number literal :: x :: left) :
    Reads (atom call) s (x :: left) fun id a => a.form? id = some (.number literal) := by
  refine .look rfl ?_
  simp only [s.lexeme_current hs]
  refine .bind (.advance hs (by simp)) fun token s' hgoes _ => ?_
  exact .weaken (.addNode _ _ _ hgoes.upcoming) fun id a h => h.1

/-- An expression without a star is an expression. -/
theorem run_testOrStar (hs : s.upcoming = y :: rest) (hy : y.Opens 0) :
    (testOrStar call).run s = (call .test).run s :=
  run_bind_of (run_consumeOperator hs (hy.ne rfl))

/-- No comprehension starts where its keywords do not stand. -/
theorem run_atComprehension (hs : s.upcoming = x :: left) (hfor : x ≠ .keyword .for)
    (hasync : x ≠ .keyword .async) : atComprehension.run s = (false, s) := by
  have htest : ∀ k, x ≠ .keyword k → (s.current.keyword? == some k) = false := by
    intro k hk
    rw [beq_eq_false_iff_ne, ne_eq, keyword?_eq_some_iff, s.lexeme_current hs]
    exact hk
  show (s.current.keyword? == some .for || (s.current.keyword? == some .async && _), s) = _
  rw [htest _ hfor, htest _ hasync]
  rfl

/-- An expression is all that stands between parentheses if no comprehension and no comma comes
behind it. -/
theorem run_parenthesizedContent (opening : Token) (hs : s.upcoming = y :: rest) (hy : y.Opens 0)
    (hs' : s'.upcoming = x :: left) (hfor : x ≠ .keyword .for) (hasync : x ≠ .keyword .async)
    (hcomma : x.kind ≠ .comma) (h : (call .test).run s = (id, s')) :
    (parenthesizedContent call opening).run s = (id, s') := by
  have hclose : (y.kind == .closeParenthesis) = false := by
    rw [beq_eq_false_iff_ne]
    intro hkind
    have hmem := hy.kind
    rw [hkind] at hmem
    revert hmem
    decide
  refine (run_bind_of (run_at _ hs)).trans ?_
  simp only [hclose]
  refine (run_bind_of (run_atKeyword hs (hy.ne rfl))).trans ?_
  refine (run_bind_of (x := currentStart) rfl).trans ?_
  refine (run_bind_of ((run_testOrStar hs hy).trans h)).trans ?_
  refine (run_bind_of (run_atComprehension hs' hfor hasync)).trans ?_
  refine (run_bind_of (run_at _ hs')).trans ?_
  rw [beq_eq_false_iff_ne.2 hcomma]
  rfl

/-- Parentheses are read around an expression, which they leave as it is. -/
theorem reads_parenthesized (hQ : Kept Q) (hs : s.upcoming = .openParenthesis :: y :: rest)
    (hy : y.Opens 0)
    (h : ∀ s', s.GoesTo s' (y :: rest) →
      Reads (call .test) s' (.closeParenthesis :: x :: left) Q) :
    Reads (atom call) s (x :: left) Q := by
  refine .look rfl ?_
  simp only [s.lexeme_current hs]
  refine .bind (.advance hs (by simp)) fun opening s₁ hgoes₁ _ => ?_
  obtain ⟨id, s₂, hrun, hgoes₂, hid⟩ := h s₁ hgoes₁
  refine .bind ⟨id, s₂, run_parenthesizedContent opening hgoes₁.upcoming hy hgoes₂.upcoming
    (by simp) (by simp) (by simp [Lexeme.kind]) hrun, hgoes₂, hid⟩ fun id s₂ hgoes₂ hid => ?_
  refine .bind (.took hgoes₂.upcoming rfl (by simp)) fun closed s₃ hgoes₃ hclosed => ?_
  subst hclosed
  have hkeeps := Arena.Keeps.widened s₃.arena id opening.start s₃.previousStop
  refine ⟨id, _, rfl, ⟨hgoes₃.upcoming, rfl, rfl, hkeeps⟩, ?_⟩
  exact hQ _ _ _ hkeeps (hQ _ _ _ hgoes₃.keeps hid)

end Grammar

/-! ## Levels -/

namespace Expression

open Grammar

/-- At a level, some words are read as an expression wherever they stand, if what follows goes on
with no expression of the level, nested expressions are allowed so deep, and enough calls. Between
two words a rule calls at most two others. -/
def IsRead (e : Expression) (n : Nat) (words : List Word) (depth : Nat) : Prop :=
  ∀ ⦃fuel : Nat⦄ ⦃s : ParseState⦄ ⦃x : Lexeme⦄ ⦃left : List Lexeme⦄,
    s.upcoming = words.map Word.lexeme ++ x :: left → x.leftLevel ≤ n →
    s.depth + depth < depthLimit → 2 * words.length ≤ fuel →
    ReadsAt (Rule.parse fuel) n s (x :: left) fun id a => a.Shows id e

variable {e : Expression} {words : List Word} {n depth : Nat}

/-- Nodes are kept as the expressions that they are. -/
theorem kept_shows (e : Expression) : Kept fun id a => a.Shows id e :=
  fun _ _ _ hkeeps h => h.keep hkeeps

/-- The first lexeme that is left opens an expression, and the second names none. -/
theorem exists_upcoming {s : ParseState} {x : Lexeme} {left : List Lexeme}
    (hs : s.upcoming = words.map Word.lexeme ++ x :: left) (hopens : OpensAt n words)
    (hwords : ∀ w ∈ words, w.IsSpelled ∧ w.lexeme ≠ .operator .walrus)
    (hx : x.leftLevel ≤ atomLevel) :
    ∃ y z more, s.upcoming = y :: z :: more ∧ y.Opens n ∧ z ≠ .operator .walrus := by
  obtain ⟨w, rest, rfl, hw⟩ := hopens
  cases rest with
  | nil =>
    refine ⟨w.lexeme, x, left, hs, hw, ?_⟩
    rintro rfl
    exact absurd hx (by decide)
  | cons w' rest => exact ⟨_, _, _, hs, hw, (hwords w' (by simp)).2⟩

/-- Words that are read and open nothing that belongs to a lower level are read there. -/
theorem IsRead.down (h : e.IsRead n words depth) (hn : n ≤ atomLevel) (hopens : OpensAt n words)
    (hwords : ∀ w ∈ words, w.IsSpelled ∧ w.lexeme ≠ .operator .walrus) {m : Nat} (hm : m ≤ n) :
    e.IsRead m words depth := by
  induction n with
  | zero => rwa [Nat.le_zero.1 hm]
  | succ n ih =>
    rcases Nat.lt_or_ge n m with hlt | hle
    · rwa [Nat.le_antisymm hm hlt]
    refine ih (fun fuel s x left hs hx hdepth hfuel => ?_) (Nat.le_of_succ_le hn)
      (hopens.mono (Nat.le_succ n)) hle
    obtain ⟨y, z, more, hupcoming, hy, hz⟩ :=
      exists_upcoming hs hopens hwords (Nat.le_trans hx (Nat.le_of_succ_le hn))
    exact ReadsAt.down hn hupcoming hy hz hx (h hs (Nat.le_succ_of_le hx) hdepth hfuel)

/-- Words in parentheses are read as an atom. -/
theorem IsRead.enclosed (h : e.IsRead 0 words depth) (hopens : OpensAt 0 words) :
    e.IsRead atomLevel (.opening :: (words ++ [.closing])) (depth + 1) := by
  intro fuel s x left hs hx hdepth hfuel
  obtain ⟨w, rest, rfl, hw⟩ := hopens
  have hsplit : s.deeper.upcoming = .openParenthesis :: w.lexeme ::
      (rest.map Word.lexeme ++ .closeParenthesis :: x :: left) := by
    rw [show s.deeper.upcoming = _ from hs]
    simp [Word.lexeme]
  obtain ⟨fuel, rfl⟩ : ∃ f, fuel = f + 2 := ⟨fuel - 2, by simp at hfuel; omega⟩
  refine readsAt_of_reads (by decide) (.nested (by omega) (reads_atomExpression hx ?_))
  refine reads_parenthesized (kept_shows e) hsplit hw fun s' hgoes => ?_
  have hinner : ReadsAt (Rule.parse fuel) 0 s' (.closeParenthesis :: x :: left)
      fun id a => a.Shows id e := by
    refine h hgoes.upcoming (by decide) ?_ (by simp at hfuel ⊢; omega)
    rw [hgoes.depth]
    show s.depth + 1 + depth < depthLimit
    omega
  exact hinner.reads (by simp [Lexeme.joins?])

/-- An expression that is read without parentheses is read at every level as it is written there. -/
theorem isRead_words (h : e.IsRead e.level e.bare e.depth) (hn : n ≤ atomLevel) :
    e.IsRead n (e.words n) (e.nesting n) := by
  have hlevel := e.level_le
  unfold words nesting Expression.enclosed deeper
  split
  · have hbottom := h.down hlevel e.opensAt_bare e.spelled_bare (Nat.zero_le _)
    have hparenthesized := hbottom.enclosed (e.opensAt_bare.mono (Nat.zero_le _))
    refine hparenthesized.down (Nat.le_refl _) ⟨_, _, rfl, atomLevel, rfl, Nat.le_refl _⟩ ?_ hn
    have hspelled := @spelled_enclosed True _ _ e.spelled_bare
    rwa [Expression.enclosed, if_pos trivial] at hspelled
  · exact h.down hlevel e.opensAt_bare e.spelled_bare (by omega)

/-- A name is read. -/
theorem isRead_name (n : Identifier) : (name n).IsRead atomLevel [.name n] 0 := by
  intro fuel s x left hs hx hdepth hfuel
  obtain ⟨fuel, rfl⟩ : ∃ f, fuel = f + 1 := ⟨fuel - 1, by simp at hfuel; omega⟩
  have hname : s.deeper.upcoming = .identifier n.text :: x :: left := hs
  refine readsAt_of_reads (by decide) (.nested (by omega) (reads_atomExpression hx ?_))
  refine .weaken (reads_name hname) fun id a h => ?_
  obtain ⟨token, htoken⟩ := h
  exact .name htoken

/-- A whole number is read. -/
theorem isRead_integer (n : Nat) : (integer n).IsRead atomLevel [.integer n] 0 := by
  intro fuel s x left hs hx hdepth hfuel
  obtain ⟨fuel, rfl⟩ : ∃ f, fuel = f + 1 := ⟨fuel - 1, by simp at hfuel; omega⟩
  have hnumber : s.deeper.upcoming = .number (.ofNat n) :: x :: left := hs
  refine readsAt_of_reads (by decide) (.nested (by omega) (reads_atomExpression hx ?_))
  exact .weaken (reads_number hnumber) fun id a h => .integer h

/-- An operand that a rule reads one level further in is read. -/
theorem IsRead.nested (h : e.IsRead n words depth) (hn : n ∉ chained) {rule : Rule}
    (hrule : ∀ call, rule.body call = Grammar.level call n) {fuel : Nat} {s : ParseState} {x : Lexeme}
    {left : List Lexeme} (hs : s.upcoming = words.map Word.lexeme ++ x :: left)
    (hx : x.leftLevel ≤ n) (hdepth : s.depth + (depth + 1) < depthLimit)
    (hfuel : 2 * words.length < fuel) :
    Reads (Parser.nested (Rule.parse fuel rule)) s (x :: left) fun id a => a.Shows id e := by
  obtain ⟨fuel, rfl⟩ : ∃ f, fuel = f + 1 := ⟨fuel - 1, by omega⟩
  have hinner : s.deeper.upcoming = words.map Word.lexeme ++ x :: left := hs
  refine .nested (by omega) ?_
  rw [show Rule.parse (fuel + 1) rule = Grammar.level (Rule.parse fuel) n from hrule _]
  refine (h hinner hx ?_ (by omega)).reads_of_not_chained hn
  show s.depth + 1 + depth < depthLimit
  omega

/-- An operand with a sign is read. -/
theorem isRead_signed (sign : Sign) (h : e.IsRead signLevel words depth)
    (hopens : OpensAt signLevel words) :
    (signed sign e).IsRead signLevel (.symbol sign.operator :: words) (depth + 1) := by
  intro fuel s x left hs hx hdepth hfuel
  obtain ⟨w, rest, rfl, hw⟩ := hopens
  refine readsAt_of_reads (by decide) (.look rfl ?_)
  rw [operator?_eq_some_iff.2 (s.lexeme_current hs)]
  simp only [sign.isSign]
  refine .bind (.advance hs (by simp [Word.lexeme])) fun token s₁ hgoes₁ _ => ?_
  have hoperand : Reads (Parser.nested (Rule.parse fuel .factor)) s₁ (x :: left)
      fun id a => a.Shows id e :=
    h.nested (by decide) (fun _ => rfl) hgoes₁.upcoming hx (by rw [hgoes₁.depth]; exact hdepth)
      (by simp only [List.length_cons] at hfuel ⊢; omega)
  refine .bind hoperand fun id s₂ hgoes₂ hid => ?_
  exact .weaken (.node _ _ hgoes₂.upcoming) fun _ a h => .signed h.1 (hid.keep h.2)

/-- A negated operand is read. -/
theorem isRead_negation (h : e.IsRead negationLevel words depth)
    (hopens : OpensAt negationLevel words) :
    (negation e).IsRead negationLevel (.keyword .not :: words) (depth + 1) := by
  intro fuel s x left hs hx hdepth hfuel
  obtain ⟨w, rest, rfl, hw⟩ := hopens
  refine readsAt_of_reads (by decide) (.bind (.consumeKeyword hs) fun token s₁ hgoes₁ htoken => ?_)
  subst htoken
  have hoperand : Reads (Parser.nested (Rule.parse fuel .notTest)) s₁ (x :: left)
      fun id a => a.Shows id e :=
    h.nested (by decide) (fun _ => rfl) hgoes₁.upcoming hx (by rw [hgoes₁.depth]; exact hdepth)
      (by simp only [List.length_cons] at hfuel ⊢; omega)
  refine .bind hoperand fun id s₂ hgoes₂ hid => ?_
  exact .weaken (.node _ _ hgoes₂.upcoming) fun _ a h => .negation h.1 (hid.keep h.2)

section Binary

variable {op : BinaryOperator} {l r : Expression} {lwords rwords : List Word} {m k : Nat}

/-- A power is read. -/
theorem isRead_power (hpower : op.IsPower) (hl : l.IsRead atomLevel lwords m)
    (hlopens : OpensAt atomLevel lwords) (hr : r.IsRead signLevel rwords k)
    (hropens : OpensAt signLevel rwords) :
    (binary op l r).IsRead op.strength (lwords ++ op.words ++ rwords) (max m (k + 1)) := by
  intro fuel s x left hs hx hdepth hfuel
  obtain ⟨operator, strength, binds⟩ := op
  obtain rfl : operator = .power := hpower
  cases binds
  obtain ⟨w, rest, rfl, hw⟩ := hlopens
  obtain ⟨w', rest', rfl, hw'⟩ := hropens
  have hsplit : s.upcoming = (w :: rest).map Word.lexeme ++ .operator .power ::
      ((w' :: rest').map Word.lexeme ++ x :: left) := by
    rw [hs]
    simp [BinaryOperator.words, Word.lexeme]
  simp only [List.length_append, List.length_cons] at hfuel
  have hbase := (@hl fuel _ _ _ hsplit (by decide) (by omega)
    (by simp only [List.length_cons]; omega)).reads_of_not_chained (by decide)
  refine readsAt_of_reads (by decide) ?_
  refine .look (run_consumeKeyword hsplit (hw.ne rfl)) (.bind hbase fun i s₁ hgoes₁ hi => ?_)
  refine .bind (.consumeOperator hgoes₁.upcoming) fun token s₂ hgoes₂ htoken => ?_
  subst htoken
  have hdepth₂ := hgoes₂.depth.trans hgoes₁.depth
  have hexponent : Reads (Parser.nested (Rule.parse fuel .factor)) s₂ (x :: left)
      fun id a => a.Shows id r :=
    hr.nested (by decide) (fun _ => rfl) hgoes₂.upcoming
      (Nat.le_of_lt (Lexeme.leftLevel_lt (Nat.lt_succ_of_le hx))) (by omega)
      (by simp only [List.length_cons]; omega)
  refine .bind hexponent fun j s₃ hgoes₃ hj => .look rfl ?_
  exact .weaken (.node _ _ hgoes₃.upcoming) fun id a h =>
    .binary h.1 (hi.keep ((hgoes₂.trans hgoes₃).keeps.trans h.2)) (hj.keep h.2)

/-- An operation that is grouped from the left is read. -/
theorem isRead_operation (hpower : ¬ op.IsPower) (hl : l.IsRead op.strength lwords m)
    (hr : r.IsRead (op.strength + 1) rwords k) (hopens : OpensAt (op.strength + 1) rwords) :
    (binary op l r).IsRead op.strength (lwords ++ op.words ++ rwords) (max m k) := by
  intro fuel s x left hs hx hdepth hfuel
  obtain ⟨hpos, hatom, -⟩ := op.strength_spec
  obtain ⟨w, rest, hwords, hleft⟩ := op.words_spec.2
  obtain ⟨w', rest', rfl, hw'⟩ := hopens
  simp only [BinaryOperator.leftLevel, if_neg hpower] at hleft
  -- The left operand is read up to the operator, which goes on with it.
  have hsplit : s.upcoming = lwords.map Word.lexeme ++ w.lexeme :: (rest.map Word.lexeme ++
      ((w' :: rest').map Word.lexeme ++ x :: left)) := by
    rw [hs, hwords]
    simp
  have hlength : (op.words.length) = rest.length + 1 := by rw [hwords]; rfl
  simp only [List.length_append, List.length_cons] at hfuel
  obtain ⟨i, s₁, hgoes₁, hi, hrun⟩ :=
    @hl fuel _ _ _ hsplit (Nat.le_of_eq hleft) (by omega) (by omega)
  have hafter : s₁.upcoming = op.words.map Word.lexeme ++ w'.lexeme ::
      (rest'.map Word.lexeme ++ x :: left) := by
    rw [hgoes₁.upcoming, hwords]
    simp
  have hoperand : ∀ s₂, s₁.GoesTo s₂ (w'.lexeme :: (rest'.map Word.lexeme ++ x :: left)) →
      Reads (Grammar.level (Rule.parse fuel) (op.strength + 1)) s₂ (x :: left)
        fun id a => a.Shows id r := by
    intro s₂ hgoes₂
    have hdepth₂ := hgoes₂.depth.trans hgoes₁.depth
    have hread := @hr fuel _ _ _ hgoes₂.upcoming (Nat.le_succ_of_le hx) (by omega)
      (by simp only [List.length_cons]; omega)
    exact hread.reads (Lexeme.joins?_ne hatom (Nat.lt_succ_of_le hx))
  obtain ⟨_, s₃, hlink, hgoes₃, id, token, j, rfl, hform, hj⟩ :=
    reads_link _ (kept_shows r) hpower i hafter hw' hoperand
  refine ⟨id, s₃, hgoes₁.trans hgoes₃, .binary hform (hi.keep hgoes₃.keeps) hj, ?_⟩
  intro c s'' hfolds
  refine hrun c s'' (.next hlink ?_ hfolds)
  rw [ParseState.length_following hgoes₃.upcoming, ParseState.length_following hgoes₁.upcoming]
  simp
  omega

end Binary

/-- A conditional expression is read. -/
theorem isRead_conditional {v c o : Expression} {vwords cwords owords : List Word} {i j k : Nat}
    (hv : v.IsRead conditionLevel vwords i) (hvopens : OpensAt conditionLevel vwords)
    (hvwords : ∀ w ∈ vwords, w.IsSpelled ∧ w.lexeme ≠ .operator .walrus)
    (hc : c.IsRead conditionLevel cwords j) (hcopens : OpensAt conditionLevel cwords)
    (ho : o.IsRead 0 owords k) (hoopens : OpensAt 0 owords) :
    (conditional v c o).IsRead 0
      (vwords ++ .keyword .if :: (cwords ++ .keyword .else :: owords)) (max i (max j (k + 1))) := by
  intro fuel s x left hs hx hdepth hfuel
  have hvalue : s.upcoming = vwords.map Word.lexeme ++ .keyword .if :: (cwords.map Word.lexeme ++
      .keyword .else :: (owords.map Word.lexeme ++ x :: left)) := by
    rw [hs]
    simp [Word.lexeme]
  obtain ⟨y, z, more, hupcoming, hy, hz⟩ := exists_upcoming hvalue hvopens hvwords (by decide)
  obtain ⟨w, rest, rfl, hw⟩ := hcopens
  obtain ⟨w', rest', rfl, hw'⟩ := hoopens
  simp only [List.length_append, List.length_cons] at hfuel
  refine readsAt_of_reads (by decide) (.congr (run_test hupcoming (hy.ne rfl) hz) ?_)
  have hread₁ := (@hv fuel _ _ _ hvalue (by decide) (by omega) (by omega)).reads (by simp [Lexeme.joins?])
  refine .bind hread₁ fun i s₁ hgoes₁ hi => ?_
  refine .bind (.tookKeyword hgoes₁.upcoming) fun tookIf s₂ hgoes₂ htook => ?_
  subst htook
  have hdepth₂ := hgoes₂.depth.trans hgoes₁.depth
  have hread₂ := (@hc fuel _ _ _ hgoes₂.upcoming (by decide) (by omega)
    (by simp only [List.length_cons]; omega)).reads (by simp [Lexeme.joins?])
  refine .bind hread₂ fun j s₃ hgoes₃ hj => ?_
  refine .bind (.tookKeyword hgoes₃.upcoming) fun tookElse s₄ hgoes₄ htook => ?_
  subst htook
  have hdepth₄ := hgoes₄.depth.trans (hgoes₃.depth.trans hdepth₂)
  have hread₄ : Reads (Parser.nested (Rule.parse fuel .test)) s₄ (x :: left)
      fun id a => a.Shows id o :=
    ho.nested (by decide) (fun _ => rfl) hgoes₄.upcoming hx (by omega)
      (by simp only [List.length_cons]; omega)
  refine .bind hread₄ fun k s₅ hgoes₅ hk => ?_
  have hkeeps₃ := hgoes₄.keeps.trans hgoes₅.keeps
  have hkeeps₁ := hgoes₂.keeps.trans (hgoes₃.keeps.trans hkeeps₃)
  exact .weaken (.node _ _ hgoes₅.upcoming) fun id a h =>
    .conditional h.1 (hi.keep (hkeeps₁.trans h.2)) (hj.keep (hkeeps₃.trans h.2)) (hk.keep h.2)

/-- The words of an expression are read as the expression. -/
theorem isRead_bare (e : Expression) : e.IsRead e.level e.bare e.depth := by
  induction e with
  | name n => exact isRead_name n
  | integer n => exact isRead_integer n
  | signed sign operand ih =>
    exact isRead_signed sign (isRead_words ih (by decide)) (operand.opensAt_words (by decide))
  | negation operand ih =>
    exact isRead_negation (isRead_words ih (by decide)) (operand.opensAt_words (by decide))
  | binary op left right ihl ihr =>
    obtain ⟨-, hatom, -, hleft, hright⟩ := op.strength_spec
    have hl := isRead_words ihl hleft
    have hr := isRead_words ihr hright
    have hlopens := left.opensAt_words hleft
    have hropens := right.opensAt_words hright
    show (binary op left right).IsRead op.strength
      (left.words op.leftLevel ++ op.words ++ right.words op.rightLevel)
      (max (left.nesting op.leftLevel) (deeper op.IsPower (right.nesting op.rightLevel)))
    by_cases hpower : op.IsPower
    · rw [deeper, if_pos hpower]
      simp only [BinaryOperator.leftLevel, BinaryOperator.rightLevel, if_pos hpower] at *
      exact isRead_power hpower hl hlopens hr hropens
    · rw [deeper, if_neg hpower]
      simp only [BinaryOperator.leftLevel, BinaryOperator.rightLevel, if_neg hpower] at *
      exact isRead_operation hpower hl hr hropens
  | conditional value condition otherwise ihv ihc iho =>
    have ho := iho.down (otherwise.level_le) otherwise.opensAt_bare otherwise.spelled_bare
      (Nat.zero_le _)
    exact isRead_conditional (isRead_words ihv (by decide)) (value.opensAt_words (by decide))
      (spelled_enclosed value.spelled_bare) (isRead_words ihc (by decide))
      (condition.opensAt_words (by decide)) ho (otherwise.opensAt_bare.mono (Nat.zero_le _))

end Expression

end TypeProbe
