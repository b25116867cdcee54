import TypeProbe.Proofs.Written.Expression
import TypeProbe.Proofs.Written.Reading

/-!
# The levels of the grammar

The rules for expressions as one list of levels (`Grammar.level`), from conditional expressions up
to atoms. On some of them an operator goes on with what has been read (`Grammar.link`), as often as
one is there. `ReadsAt` says that a level reads up to a place from where such operators may still go
on; it holds of a level as soon as it holds of the next one (`ReadsAt.down`), if the first lexeme
opens nothing that belongs to the lower level.
-/

open TypeProbe.Parser

namespace TypeProbe.Grammar

/-! ## Operators between operands -/

/-- A keyword between two operands, and the second. -/
def keywordLink (keyword : Keyword) (op : Operator) (operand : Parser NodeId) (left : NodeId) :
    Parser (Option NodeId) := do
  match ← consumeKeyword keyword with
  | none => return none
  | some token => return some (← binary left op token (← operand))

/-- A sign of the given strength between two operands, and the second. -/
def symbolLink (strength : Nat) (operand : Parser NodeId) (left : NodeId) :
    Parser (Option NodeId) := do
  match (← peek).operator? with
  | none => return none
  | some op =>
    if op.binaryPrecedence? != some strength then return none
    let token ← advance
    return some (← binary left op token (← operand))

/-- A comparison between two operands, and the second. -/
def comparisonLink (operand : Parser NodeId) (left : NodeId) : Parser (Option NodeId) := do
  match ← comparisonOperator with
  | none => return none
  | some (op, token) =>
    let _ ← advance
    return some (← binary left op token (← operand))

variable (call : Rules)

/-- An expression that starts at an offset, and the condition and the other expression behind it, if
they are there. -/
def conditional (start : Nat) : Parser NodeId := do
  let ifExpression ← orTest call
  if !(← tookKeyword .if) then return ifExpression
  let condition ← orTest call
  let elseExpression ←
    if ← tookKeyword .else then nested (call .test)
    else do
      fault (.spelling "else")
      errorNode .missingElse none
  node start (.ternary ifExpression condition elseExpression)

/-- What is read at a level. -/
def level : Nat → Parser NodeId
  | 0 => test call
  | 1 => orTest call
  | 2 => keywordChain .and .and (notTest call)
  | 3 => notTest call
  | 4 => comparison call
  | 12 => power call
  | 13 => nested (call .atomExpression)
  | n => binaryLevels (factor call) (signLevel - n)

/-- What goes on at a level behind an operand. -/
def link : Nat → NodeId → Parser (Option NodeId)
  | 1 => keywordLink .or .or (level call 2)
  | 2 => keywordLink .and .and (level call 3)
  | 4 => comparisonLink (level call 5)
  | 5 => symbolLink 5 (level call 6)
  | 6 => symbolLink 6 (level call 7)
  | 7 => symbolLink 7 (level call 8)
  | 8 => symbolLink 8 (level call 9)
  | 9 => symbolLink 9 (level call 10)
  | 10 => symbolLink 10 (level call 11)
  | _ => fun _ => return none

/-- The levels whose operators are grouped from the left. -/
def chained : List Nat := [1, 2, 4, 5, 6, 7, 8, 9, 10]

/-- On a level whose operators are grouped from the left, operands of the next level follow each
other. -/
theorem level_eq {n : Nat} (h : n ∈ chained) :
    level call n = level call (n + 1) >>= fun first => foldMany first (link call n) := by
  simp only [chained, List.mem_cons, List.not_mem_nil, or_false] at h
  rcases h with rfl | rfl | rfl | rfl | rfl | rfl | rfl | rfl | rfl <;> rfl

/-- On the other levels nothing goes on. -/
theorem link_eq {n : Nat} (h : n ∉ chained) : link call n = fun _ => return none := by
  unfold link
  split <;> first | rfl | exact absurd (by decide) h

section Stops

variable {s : ParseState} {left : List Lexeme} {x : Lexeme} {operand : Parser NodeId}

/-- Nothing goes on where another lexeme than the keyword stands. -/
theorem run_keywordLink {keyword : Keyword} {op : Operator} {id : NodeId}
    (hs : s.upcoming = x :: left) (hx : x ≠ .keyword keyword) :
    (keywordLink keyword op operand id).run s = (none, s) := by
  unfold keywordLink
  rw [StateT.run_bind, run_consumeKeyword hs hx]
  rfl

/-- Nothing goes on where no sign of the strength stands. -/
theorem run_symbolLink {strength : Nat} {id : NodeId} (hs : s.upcoming = x :: left)
    (hx : x.joins? ≠ some strength) : (symbolLink strength operand id).run s = (none, s) := by
  unfold symbolLink
  rw [StateT.run_bind]
  show StateT.run (match s.current.operator? with | none => _ | some op => _) s = _
  cases hop : s.current.operator? with
  | none => rfl
  | some op =>
    rw [operator?_eq_some_iff, s.lexeme_current hs] at hop
    subst hop
    have htest : (op.binaryPrecedence? != some strength) = true := bne_iff_ne.2 hx
    simp only [htest, if_true]
    rfl

/-- Nothing goes on where no comparison stands. -/
theorem run_comparisonLink {id : NodeId} (hs : s.upcoming = x :: left)
    (hx : x.joins? ≠ Operator.in.binaryPrecedence?) :
    (comparisonLink operand id).run s = (none, s) := by
  have hnone : comparisonOperator.run s = (none, s) := by
    obtain ⟨⟨range, lexeme⟩, following, previousStop, arena, diagnostics, depth, widened⟩ := s
    obtain rfl : lexeme = x := (List.cons.inj hs).1
    cases lexeme with
    | operator op =>
      have htest : op.isComparison = false := beq_eq_false_iff_ne.2 hx
      show (if op.isComparison = true then some (op, _) else none, _) = _
      rw [htest]
      rfl
    | keyword k => cases k <;> first | rfl | exact absurd rfl hx
    | _ => rfl
  unfold comparisonLink
  rw [StateT.run_bind, hnone]
  rfl

/-- Nothing goes on at a level where no operator of the level stands. -/
theorem run_link {n : Nat} (id : NodeId) (hs : s.upcoming = x :: left) (hx : x.joins? ≠ some n) :
    (link call n id).run s = (none, s) := by
  by_cases hn : n ∈ chained
  · simp only [chained, List.mem_cons, List.not_mem_nil, or_false] at hn
    rcases hn with rfl | rfl | rfl | rfl | rfl | rfl | rfl | rfl | rfl
    · exact run_keywordLink hs (by rintro rfl; exact hx rfl)
    · exact run_keywordLink hs (by rintro rfl; exact hx rfl)
    · exact run_comparisonLink hs hx
    all_goals exact run_symbolLink hs hx
  · rw [link_eq call hn]
    rfl

end Stops

section Reads

variable {s : ParseState} {mid left : List Lexeme} {x y : Lexeme} {operand : Parser NodeId}
variable {Q : NodeId → Arena → Prop} {n : Nat}

/-- A result is the operation on two operands, the second of which has a property. -/
def Operates (op : Operator) (left : NodeId) (Q : NodeId → Arena → Prop) (result : Option NodeId)
    (a : Arena) : Prop :=
  ∃ id token right, result = some id ∧
    a.form? id = some (.binaryOperation op token left right false) ∧ Q right a

/-- A property of nodes that is kept with them. -/
def Kept (Q : NodeId → Arena → Prop) : Prop := ∀ id a a', a.Keeps a' → Q id a → Q id a'

/-- Behind an operator the second operand is read, and the operation is put together. -/
theorem reads_operation (hQ : Kept Q) (op : Operator) (token : Token) (id : NodeId)
    (hoperand : Reads operand s left Q) :
    Reads (operand >>= fun right => binary id op token right >>= fun r => pure (some r)) s left
      (Operates op id Q) := by
  refine .bind hoperand fun right s₁ hgoes₁ hright => ?_
  refine .bind (.look rfl (.node _ _ hgoes₁.upcoming)) fun r s₂ hgoes₂ hr => ?_
  exact .ret hgoes₂.upcoming ⟨r, token, right, rfl, hr.1, hQ _ _ _ hr.2 hright⟩

/-- A keyword goes on with an operand. -/
theorem reads_keywordLink (hQ : Kept Q) {keyword : Keyword} {op : Operator} (id : NodeId)
    (hs : s.upcoming = .keyword keyword :: y :: mid)
    (hoperand : ∀ s', s.GoesTo s' (y :: mid) → Reads operand s' left Q) :
    Reads (keywordLink keyword op operand id) s left (Operates op id Q) := by
  refine .bind (.consumeKeyword hs) fun token s₁ hgoes₁ htoken => ?_
  subst htoken
  exact reads_operation hQ op _ id (hoperand s₁ hgoes₁)

/-- A sign of the strength goes on with an operand. -/
theorem reads_symbolLink (hQ : Kept Q) {op : Operator} (id : NodeId)
    (hs : s.upcoming = .operator op :: y :: mid) (hop : op.binaryPrecedence? = some n)
    (hoperand : ∀ s', s.GoesTo s' (y :: mid) → Reads operand s' left Q) :
    Reads (symbolLink n operand id) s left (Operates op id Q) := by
  refine .look rfl ?_
  rw [operator?_eq_some_iff.2 (s.lexeme_current hs)]
  have htest : (op.binaryPrecedence? != some n) = false := by rw [hop]; simp
  simp only [htest]
  refine .bind (.advance hs nofun) fun token s₁ hgoes₁ htoken => ?_
  exact reads_operation hQ op _ id (hoperand s₁ hgoes₁)

/-- A comparison goes on with an operand. -/
theorem reads_comparisonLink (hQ : Kept Q) {op : Operator} (id : NodeId)
    (hop : Reads comparisonOperator s (x :: y :: mid) fun r _ => ∃ token, r = some (op, token))
    (hx : x ≠ .endOfStream)
    (hoperand : ∀ s', s.GoesTo s' (y :: mid) → Reads operand s' left Q) :
    Reads (comparisonLink operand id) s left (Operates op id Q) := by
  refine .bind hop fun r s₁ hgoes₁ hr => ?_
  obtain ⟨token, rfl⟩ := hr
  refine .bind (.advance hgoes₁.upcoming hx) fun _ s₂ hgoes₂ _ => ?_
  exact reads_operation hQ op _ id (hoperand s₂ (hgoes₁.trans hgoes₂))

/-- The keyword of the token behind the next one is that of its lexeme. -/
theorem second_keyword? (hs : s.upcoming = x :: y :: mid) (k : Keyword) :
    ((s.following.headD s.current).keyword? == some k) = decide (y = .keyword k) := by
  rw [Bool.eq_iff_iff, beq_iff_eq, decide_eq_true_iff, keyword?_eq_some_iff, s.lexeme_second hs]

/-- A sign is the operator of a comparison, and its token shows it. -/
theorem run_comparisonOperator_sign {op : Operator} (hop : op.isComparison = true)
    (hs : s.current.lexeme = .operator op) :
    comparisonOperator.run s = (some (op, s.current), s) := by
  obtain ⟨⟨range, lexeme⟩, following, previousStop, arena, diagnostics, depth, widened⟩ := s
  obtain rfl : lexeme = .operator op := hs
  show (if op.isComparison = true then some (op, _) else none, _) = _
  rw [if_pos hop]

/-- A keyword is the operator of a comparison. -/
theorem run_comparisonOperator_in (hs : s.current.lexeme = .keyword .in) :
    comparisonOperator.run s = (some (.in, s.current), s) := by
  obtain ⟨⟨range, lexeme⟩, following, previousStop, arena, diagnostics, depth, widened⟩ := s
  obtain rfl : lexeme = .keyword .in := hs
  rfl

/-- The comparison of one or two words that starts with its first one. -/
theorem run_comparisonOperator_is (hs : s.current.lexeme = .keyword .is) :
    comparisonOperator.run s =
      if (s.following.headD s.current).keyword? == some .not then
        (some (.isNot, s.current), advanced s)
      else (some (.is, s.current), s) := by
  obtain ⟨⟨range, lexeme⟩, following, previousStop, arena, diagnostics, depth, widened⟩ := s
  obtain rfl : lexeme = .keyword .is := hs
  show StateT.run (if _ then _ else _) _ = _
  split <;> rfl

/-- The comparison of two words that starts with a negation. -/
theorem run_comparisonOperator_not (hs : s.current.lexeme = .keyword .not) :
    comparisonOperator.run s =
      if (s.following.headD s.current).keyword? == some .in then
        (some (.notIn, s.current), advanced s)
      else (none, s) := by
  obtain ⟨⟨range, lexeme⟩, following, previousStop, arena, diagnostics, depth, widened⟩ := s
  obtain rfl : lexeme = .keyword .not := hs
  show StateT.run (if _ then _ else _) _ = _
  split <;> rfl

/-- The token of a comparison is found; of one in two words it is the first. -/
theorem reads_comparisonOperator {op : BinaryOperator} (hop : op.operator.isComparison = true)
    (hs : s.upcoming = op.words.map Word.lexeme ++ y :: mid) (hy : y ≠ .keyword .not) :
    ∃ x, x ≠ .endOfStream ∧ Reads comparisonOperator s (x :: y :: mid)
      fun r _ => ∃ token, r = some (op.operator, token) := by
  obtain ⟨operator, strength, binds⟩ := op
  have hstay : ∀ x, s.upcoming = x :: y :: mid → x ≠ .endOfStream →
      comparisonOperator.run s = (some (operator, s.current), s) →
      ∃ x, x ≠ .endOfStream ∧ Reads comparisonOperator s (x :: y :: mid)
        fun r _ => ∃ token, r = some (operator, token) :=
    fun x hx hne h => ⟨x, hne, _, s, h, .refl hx, s.current, rfl⟩
  have hpass : ∀ first x, s.upcoming = first :: x :: y :: mid → first ≠ .endOfStream →
      x ≠ .endOfStream →
      comparisonOperator.run s = (some (operator, s.current), advanced s) →
      ∃ x, x ≠ .endOfStream ∧ Reads comparisonOperator s (x :: y :: mid)
        fun r _ => ∃ token, r = some (operator, token) :=
    fun first x hx hfirst hne h => ⟨x, hne, _, _, h, s.goesTo_advanced hx hfirst, s.current, rfl⟩
  cases operator with
  | equals | notEquals | lessThan | lessThanOrEqual | greaterThan | greaterThanOrEqual
  | lessOrGreaterThan =>
    exact hstay _ hs (by simp [Word.lexeme])
      (run_comparisonOperator_sign hop (s.lexeme_current hs))
  | «in» =>
    exact hstay _ hs (by simp [Word.lexeme]) (run_comparisonOperator_in (s.lexeme_current hs))
  | is =>
    refine hstay _ hs (by simp [Word.lexeme]) ?_
    rw [run_comparisonOperator_is (s.lexeme_current hs), second_keyword? hs, decide_eq_false hy]
    rfl
  | isNot =>
    refine hpass _ _ hs (by simp [Word.lexeme]) (by simp [Word.lexeme]) ?_
    rw [run_comparisonOperator_is (s.lexeme_current hs), second_keyword? hs]
    rfl
  | notIn =>
    refine hpass _ _ hs (by simp [Word.lexeme]) (by simp [Word.lexeme]) ?_
    rw [run_comparisonOperator_not (s.lexeme_current hs), second_keyword? hs]
    rfl
  | _ => cases hop

/-- The operator of a level goes on with an operand of the next level. -/
theorem reads_link (hQ : Kept Q) {op : BinaryOperator} (hpower : ¬ op.IsPower) (id : NodeId)
    (hs : s.upcoming = op.words.map Word.lexeme ++ y :: mid) (hy : y.Opens (op.strength + 1))
    (hoperand : ∀ s', s.GoesTo s' (y :: mid) → Reads (level call (op.strength + 1)) s' left Q) :
    Reads (link call op.strength id) s left (Operates op.operator id Q) := by
  by_cases hcomparison : op.operator.isComparison = true
  · have hstrength : op.strength = 4 := by
      have hbinds := op.binds
      rw [eq_of_beq hcomparison] at hbinds
      exact (Option.some.inj hbinds).symm
    have hnot : y ≠ .keyword .not := by
      rintro rfl
      obtain ⟨n, hn, hle⟩ := hy
      rw [hstrength, ← Option.some.inj hn] at hle
      exact absurd hle (by decide)
    obtain ⟨x, hx, hread⟩ := reads_comparisonOperator hcomparison hs hnot
    rw [hstrength] at hoperand ⊢
    exact reads_comparisonLink hQ id hread hx hoperand
  · obtain ⟨operator, strength, binds⟩ := op
    cases operator with
    | or | and =>
      cases binds
      exact reads_keywordLink hQ id hs hoperand
    | power => exact absurd rfl hpower
    | bitwiseOr | bitwiseXor | bitwiseAnd | leftShift | rightShift | add | subtract | multiply
    | matrixMultiply | divide | floorDivide | mod =>
      cases binds
      exact reads_symbolLink hQ id hs rfl hoperand
    | _ => first | exact absurd rfl hcomparison | cases binds

end Reads

/-! ## From a level to the one below -/

/-- A level reads up to a place with a result of which something holds, from where operators of the
level may still go on: where they end, the level does. -/
def ReadsAt (n : Nat) (s : ParseState) (left : List Lexeme) (Q : NodeId → Arena → Prop) : Prop :=
  ∃ id s', s.GoesTo s' left ∧ Q id s'.arena ∧
    ∀ c s'', Folds (link call n) id s' c s'' → (level call n).run s = (c, s'')

section ReadsAt

variable {call} {s s' : ParseState} {left rest : List Lexeme} {x y z : Lexeme} {n : Nat}
variable {id : NodeId} {Q : NodeId → Arena → Prop}

/-- A level ends where no operator of it stands. -/
theorem ReadsAt.reads (h : ReadsAt call n s (x :: left) Q) (hx : x.joins? ≠ some n) :
    Reads (level call n) s (x :: left) Q := by
  obtain ⟨id, s', hgoes, hQ, hrun⟩ := h
  exact ⟨id, s', hrun _ _ (.stop (run_link call id hgoes.upcoming hx)), hgoes, hQ⟩

/-- A level on which nothing goes on ends everywhere. -/
theorem ReadsAt.reads_of_not_chained (hn : n ∉ chained) (h : ReadsAt call n s left Q) :
    Reads (level call n) s left Q := by
  obtain ⟨id, s', hgoes, hQ, hrun⟩ := h
  refine ⟨id, s', hrun _ _ (.stop ?_), hgoes, hQ⟩
  rw [link_eq call hn]
  rfl

/-- On the other levels nothing goes on. -/
theorem readsAt_of_reads (hn : n ∉ chained) (h : Reads (level call n) s left Q) :
    ReadsAt call n s left Q := by
  obtain ⟨id, s', hrun, hgoes, hQ⟩ := h
  refine ⟨id, s', hgoes, hQ, fun c s'' hfolds => ?_⟩
  rw [link_eq call hn] at hfolds
  cases hfolds with
  | stop hstop =>
    rw [← (Prod.mk.inj hstop).2]
    exact hrun
  | next hnext => cases hnext

/-- An operand of the next level is the first of a chain. -/
theorem readsAt_of_reads_succ (hn : n ∈ chained) (h : Reads (level call (n + 1)) s left Q) :
    ReadsAt call n s left Q := by
  obtain ⟨id, s', hrun, hgoes, hQ⟩ := h
  refine ⟨id, s', hgoes, hQ, fun c s'' hfolds => ?_⟩
  rw [level_eq call hn, StateT.run_bind, hrun]
  exact hfolds.run_foldMany

/-- An expression that is neither a function without a name nor a named one is possibly
conditional. -/
theorem run_test (hs : s.upcoming = y :: z :: rest) (hlambda : y ≠ .keyword .lambda)
    (hz : z ≠ .operator .walrus) :
    (test call).run s = (conditional call s.current.start).run s := by
  have hfirst : (s.current.keyword? == some .lambda) = false := by
    rw [beq_eq_false_iff_ne, ne_eq, keyword?_eq_some_iff, s.lexeme_current hs]
    exact hlambda
  have hsecond : ((s.following.headD s.current).operator? == some .walrus) = false := by
    rw [beq_eq_false_iff_ne, ne_eq, operator?_eq_some_iff, s.lexeme_second hs]
    exact hz
  refine (run_bind_of (x := peek) rfl).trans ?_
  simp only [hfirst]
  refine (run_bind_of (x := peekSecond) rfl).trans ?_
  simp only [hsecond, Bool.and_false]
  rfl

/-- An expression behind which no condition stands is one of the level above. -/
theorem run_conditional (start : Nat) (hs' : s'.upcoming = x :: left) (hx : x ≠ .keyword .if)
    (h : (level call 1).run s = (id, s')) : (conditional call start).run s = (id, s') := by
  rw [conditional, StateT.run_bind, show (orTest call).run s = _ from h]
  show StateT.run (tookKeyword .if >>= _) s' = _
  rw [StateT.run_bind, run_tookKeyword hs' hx]
  rfl

/-- What is not negated is a comparison. -/
theorem run_notTest (hs : s.upcoming = y :: rest) (hy : y ≠ .keyword .not) :
    (notTest call).run s = (level call 4).run s := by
  rw [notTest, StateT.run_bind, run_consumeKeyword hs hy]
  rfl

/-- What has no sign is a power. -/
theorem run_factor (hs : s.upcoming = y :: rest)
    (hy : ∀ op, y = .operator op → isSign op = false) :
    (factor call).run s = (power call).run s := by
  show StateT.run (match s.current.operator? with | none => power call | some op => _) s = _
  cases hop : s.current.operator? with
  | none => rfl
  | some op =>
    rw [operator?_eq_some_iff, s.lexeme_current hs] at hop
    simp only [hy op hop]
    rfl

/-- What is not awaited and is no power is an atom. -/
theorem run_power (hs : s.upcoming = y :: rest) (hy : y ≠ .keyword .await)
    (hs' : s'.upcoming = x :: left) (hx : x ≠ .operator .power)
    (h : (level call 13).run s = (id, s')) : (power call).run s = (id, s') := by
  rw [power, StateT.run_bind, run_consumeKeyword hs hy]
  show StateT.run (nested (call .atomExpression) >>= _) s = _
  rw [StateT.run_bind, show (nested (call .atomExpression)).run s = _ from h]
  show StateT.run (consumeOperator .power >>= _) s' = _
  rw [StateT.run_bind, run_consumeOperator hs' hx]
  rfl

/-- A level does what the next one does, if the first lexeme opens nothing that belongs to the lower
level only, and the lexeme behind goes on with nothing that does. -/
theorem run_level (hn : n < atomLevel) (hs : s.upcoming = y :: z :: rest) (hy : y.Opens (n + 1))
    (hz : z ≠ .operator .walrus) (hs' : s'.upcoming = x :: left) (hx : x.leftLevel ≤ n)
    (hjoins : n ∈ chained → x.joins? ≠ some n) (h : (level call (n + 1)).run s = (id, s')) :
    (level call n).run s = (id, s') := by
  by_cases hchained : n ∈ chained
  · rw [level_eq call hchained, StateT.run_bind, h]
    exact Folds.run_foldMany (.stop (run_link call id hs' (hjoins hchained)))
  obtain ⟨m, hm, hle⟩ := hy
  obtain rfl | rfl | rfl | rfl : n = 0 ∨ n = 3 ∨ n = 11 ∨ n = 12 := by
    simp only [chained, List.mem_cons, List.not_mem_nil, or_false] at hchained
    simp only [atomLevel] at hn
    omega
  · refine (run_test hs ?_ hz).trans (run_conditional _ hs' ?_ h)
    · rintro rfl
      cases hm
    · rintro rfl
      exact absurd hx (by decide)
  · refine (run_notTest hs ?_).trans h
    rintro rfl
    rw [← Option.some.inj hm] at hle
    exact absurd hle (by decide)
  · refine (run_factor hs ?_).trans h
    rintro op rfl
    rw [Lexeme.opens?] at hm
    split at hm
    · rw [← Option.some.inj hm] at hle
      exact absurd hle (by decide)
    · rename_i hsign
      exact Bool.eq_false_of_not_eq_true hsign
  · refine run_power hs ?_ hs' ?_ h
    · rintro rfl
      cases hm
    · rintro rfl
      exact absurd hx (by decide)

/-- At the end of a line nothing goes on, so all levels below do what a level does. -/
theorem run_level_of_le {kind : NewLineKind} (hn : n ≤ atomLevel) (hs : s.upcoming = y :: z :: rest)
    (hy : y.Opens n) (hz : z ≠ .operator .walrus) (hs' : s'.upcoming = .newLine kind :: left)
    (h : (level call n).run s = (id, s')) {m : Nat} (hm : m ≤ n) :
    (level call m).run s = (id, s') := by
  induction n with
  | zero => rwa [Nat.le_zero.1 hm]
  | succ n ih =>
    rcases Nat.lt_or_ge n m with hlt | hle
    · rwa [Nat.le_antisymm hm hlt]
    obtain ⟨k, hk, hlevel⟩ := hy
    refine ih (Nat.le_of_succ_le hn) ⟨k, hk, Nat.le_of_succ_le hlevel⟩ ?_ hle
    exact run_level hn hs ⟨k, hk, hlevel⟩ hz hs' (Nat.zero_le _) (fun _ => nofun) h

/-- What a level reads the one below reads, if the first lexeme opens nothing that belongs below and
the next lexeme goes on with nothing that does. -/
theorem ReadsAt.down (hn : n < atomLevel) (hs : s.upcoming = y :: z :: rest)
    (hy : y.Opens (n + 1)) (hz : z ≠ .operator .walrus) (hx : x.leftLevel ≤ n)
    (h : ReadsAt call (n + 1) s (x :: left) Q) : ReadsAt call n s (x :: left) Q := by
  have hread := h.reads (Lexeme.joins?_ne hn (Nat.lt_succ_of_le hx))
  by_cases hchained : n ∈ chained
  · exact readsAt_of_reads_succ hchained hread
  obtain ⟨id, s', hrun, hgoes, hid⟩ := hread
  refine readsAt_of_reads hchained ⟨id, s', ?_, hgoes, hid⟩
  exact run_level hn hs hy hz hgoes.upcoming hx (fun hmem => absurd hmem hchained) hrun

end ReadsAt

end TypeProbe.Grammar
