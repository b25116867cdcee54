import TypeProbe.Proofs.Joined.Steps

/-!
# Expressions side by side
-/

open TypeProbe.Parser

namespace TypeProbe

/-- The rule for the second parser: what it is given has been read further back. -/
def Rule.shift (F : Frame) : Rule → Rule
  | .assignment start left => .assignment (start + F.bytes) (left + F.ids)
  | rule => rule

/-- Rules that call others before they take a token come after those. -/
def Rule.rank : Rule → Nat
  | .lambda | .atomExpression | .ifStatement => 0
  | .factor => 1
  | .notTest => 2
  | .test => 3
  | .statement | .assignment .. => 4

/-- Where a rule may be called. -/
def Rule.Fits (F : Frame) (p : Spot) : Rule → Prop
  | .lambda => endsLine p.token.kind = false
  | .statement | .ifStatement => F.whole = true ∧ endsLine p.token.kind = false
  | _ => True

/-- The rules go side by side where few enough tokens are left. -/
def RulesAlike (F : Frame) (w : Nat) (call call' : Rules) : Prop :=
  ∀ rule p, 4 * p.after.length + rule.rank < w → rule.Fits F p →
    Alike F p (· + F.ids) (call rule) (call' (rule.shift F)) fun id q =>
      id < q.nodes ∧ (rule = .statement → q.after.length < p.after.length)

namespace Alike

variable {F : Frame} {p q : Spot} {w : Nat}

/-- Whether an expression goes on may be seen. -/
theorem atExpressionEnd {γ δ : Type} {h : γ → δ} {goal : γ → Spot → Prop} {k : Bool → Parser γ}
    {k' : Bool → Parser δ}
    (hk : Alike F p h (k (Grammar.endsExpression p.token)) (k' (Grammar.endsExpression p.token))
      goal) :
    Alike F p h (Grammar.atExpressionEnd >>= k) (Grammar.atExpressionEnd >>= k') goal :=
  look (f := Grammar.endsExpression) (fun _ => rfl) (fun _ => rfl) hk

/-- An error node may stand for an expression. -/
theorem missingExpression : AlikeNode F p Grammar.missingExpression Grammar.missingExpression :=
  fault (errorNode _ none)

/-- Two operands may become one node. -/
theorem binary {left right : NodeId} {op : Operator} {token : Token} :
    AlikeNode F p (Grammar.binary left op token right)
      (Grammar.binary (left + F.ids) op (token.shift F.bytes) (right + F.ids)) := by
  refine inspect fun s s' hs => node ?_ rfl
  rw [hs.arena, Arena.start?_behind]
  cases s.arena.range? left <;> rfl

/-- Operands may be joined by a keyword. -/
theorem keywordChain (keyword : Keyword) (op : Operator) {operand operand' : Parser NodeId}
    (hoperand : ∀ q, p.Before q → AlikeNode F q operand operand') :
    AlikeNode F p (Grammar.keywordChain keyword op operand)
      (Grammar.keywordChain keyword op operand') := by
  refine (hoperand p (.refl p)).bind fun first q hq hfirst => ?_
  refine foldNodes hfirst fun left u hu hleft => ?_
  refine consumeKeyword (fun _ v hv => ?_) (ret rfl hleft)
  have hlt := hv.lt
  refine (hoperand v (hq.trans (hu.trans hv.before))).bind fun right r hr _ => ?_
  exact binary.bind fun id t ht hid => ret rfl ⟨hid, by omega⟩

/-- Operands may be joined by operators of several strengths. -/
theorem binaryLevels {operand operand' : Parser NodeId} (levels : Nat)
    (hoperand : ∀ q, p.Before q → AlikeNode F q operand operand') :
    AlikeNode F p (Grammar.binaryLevels operand levels) (Grammar.binaryLevels operand' levels) := by
  induction levels generalizing p with
  | zero => exact hoperand p (.refl p)
  | succ levels ih =>
    refine (ih hoperand).bind fun first q hq hfirst => foldNodes hfirst fun left u hu hleft => ?_
    refine peek ?_
    rw [Token.operator?_shift]
    cases hop : u.token.operator? with
    | none => exact ret rfl hleft
    | some op =>
      refine ite (fun _ => ret rfl hleft) fun _ => ?_
      refine advance (Frame.not_isEnd (endsLine_of_operator? hop)) fun v hv => ?_
      have hlt := hv.lt
      refine (ih fun r hr => hoperand r (hq.trans (hu.trans (hv.before.trans hr)))).bind
        fun right r hr _ => ?_
      exact binary.bind fun id t ht hid => ret rfl ⟨hid, by omega⟩

/-- A construct may be closed, or become part of an error node. -/
theorem closing (closed : Bool) (id : NodeId) (hid : id < p.nodes) (spelling : String)
    (category : ErrorCategory) :
    AlikeNode F p (Grammar.closing closed id spelling category)
      (Grammar.closing closed (id + F.ids) spelling category) := by
  refine ite (fun _ => ret rfl hid) fun _ => fault (skipToEndOfLine fun q hq _ => ?_)
  exact errorNode category (some id)

/-- A name and the operator after it may be taken, if they are the next two tokens. -/
theorem nameBefore {γ δ : Type} {h : γ → δ} {goal : γ → Spot → Prop} {op : Operator} {c : Bool}
    {t t' : Token} {k : NodeId → Parser γ} {k' : NodeId → Parser δ} {y : Parser γ} {y' : Parser δ}
    (hc : c = true → p.token.kind = .identifier)
    (ht : endsLine p.token.kind = false →
      ∃ q, p.Next q ∧ t = q.token ∧ t' = q.token.shift F.bytes)
    (hk : ∀ title q, p.Before q → q.after.length < p.after.length →
      Alike F q h (k title) (k' (title + F.ids)) goal)
    (hy : Alike F p h y y' goal) :
    Alike F p h
      (if c && t.operator? == some op then do
        let title ← Parser.nameNode (← Parser.advance)
        let _ ← Parser.advance
        k title
      else y)
      (if c && t'.operator? == some op then do
        let title ← Parser.nameNode (← Parser.advance)
        let _ ← Parser.advance
        k' title
      else y') goal := by
  have hline : c = true → endsLine p.token.kind = false := fun h => by
    rw [hc h]
    rfl
  refine iteOf (second_eq (f := fun t => t.operator? == some op) (fun _ => rfl) hline ht)
    (fun hboth => ?_) fun _ => hy
  rw [Bool.and_eq_true] at hboth
  obtain ⟨q, hq, rfl, rfl⟩ := ht (hline hboth.1)
  refine advance (Frame.not_isEnd (hline hboth.1)) fun u hu => ?_
  obtain ⟨htoken, -⟩ := List.cons.inj (hq.after.symm.trans hu.after)
  refine nameNodeHere.bind fun title v hv hhere => advance ?_ fun r hr => ?_
  · rw [hhere.2, ← htoken]
    exact Frame.not_isEnd (endsLine_of_operator? (eq_of_beq hboth.2))
  · have hlt := hu.lt
    have hless := hr.lt
    exact hk title r (hu.before.trans (hv.trans hr.before)) (by omega)

section Rules

variable {call call' : Rules} (hcall : RulesAlike F w call call')
include hcall

/-- An expression may be read. -/
theorem ofTest (hw : 4 * p.after.length + 3 < w) : AlikeNode F p (call .test) (call' .test) :=
  (hcall .test p hw trivial).weaken fun _ _ _ h => h.1

/-- A rule that goes on from no node may be read one level further in. -/
theorem nestedRule {rule : Rule} (hrule : rule.shift F = rule)
    (hw : 4 * p.after.length + rule.rank < w)
    (hfits : rule.Fits F { p with depth := p.depth + 1 }) :
    AlikeNode F p (Parser.nested (call rule)) (Parser.nested (call' rule)) := by
  have hinner := (hcall rule { p with depth := p.depth + 1 } hw hfits).weaken fun _ _ _ h => h.1
  rw [hrule] at hinner
  exact nested hinner

/-- An atom with what follows it may be read one level further in. -/
theorem nestedAtom (hw : 4 * p.after.length < w) :
    AlikeNode F p (Parser.nested (call .atomExpression)) (Parser.nested (call' .atomExpression)) :=
  nestedRule hcall rfl hw trivial

/-- An expression with a sign, or a power, may be read one level further in. -/
theorem nestedFactor (hw : 4 * p.after.length + 1 < w) :
    AlikeNode F p (Parser.nested (call .factor)) (Parser.nested (call' .factor)) :=
  nestedRule hcall rfl hw trivial

/-- An expression of any form may be read one level further in. -/
theorem nestedTest (hw : 4 * p.after.length + 3 < w) :
    AlikeNode F p (Parser.nested (call .test)) (Parser.nested (call' .test)) :=
  nestedRule hcall rfl hw trivial

/-- A power may be read. -/
theorem power (hw : 4 * p.after.length < w) :
    AlikeNode F p (Grammar.power call) (Grammar.power call') := by
  unfold Grammar.power
  extract_lets rest rest'
  have hrest : ∀ id q, p.Before q → id < q.nodes →
      AlikeNode F q (rest id) (rest' (id + F.ids)) := by
    intro left q hq hleft
    refine consumeOperator (fun _ u hu => ?_) fun _ => ret rfl hleft
    have hlt := hu.lt
    exact (nestedFactor hcall (by omega)).bind fun right v hv _ => binary
  refine consumeKeyword (fun _ q hq => ?_) ((nestedAtom hcall hw).bind fun id q hq hid => ?_)
  · have hlt := hq.lt
    refine (nestedAtom hcall (by omega)).bind fun id u hu _ => ?_
    exact bind (node rfl rfl) fun id v hv hid => hrest id v (hq.before.trans (hu.trans hv)) hid
  · exact hrest id q hq hid

/-- An expression with a sign may be read. -/
theorem factor (hw : 4 * p.after.length < w) :
    AlikeNode F p (Grammar.factor call) (Grammar.factor call') := by
  refine peek ?_
  rw [Token.operator?_shift]
  cases hop : p.token.operator? with
  | none => exact power hcall hw
  | some op =>
    refine ite (fun _ => power hcall hw) fun _ => ?_
    refine advance (Frame.not_isEnd (endsLine_of_operator? hop)) fun q hq => ?_
    have hlt := hq.lt
    exact (nestedFactor hcall (by omega)).bind fun id u hu _ => node rfl rfl

/-- Binary operations may be read. -/
theorem bitwiseOr (hw : 4 * p.after.length < w) :
    AlikeNode F p (Grammar.bitwiseOr call) (Grammar.bitwiseOr call') :=
  binaryLevels 6 fun q hq => factor hcall (by omega)

omit hcall in
/-- A comparing operator may be seen, and its first word taken if it has two. -/
theorem comparisonOperator :
    Alike F p (Option.map (Prod.map id (Token.shift F.bytes))) Grammar.comparisonOperator
      Grammar.comparisonOperator fun found q =>
        found.isSome = true → endsLine q.token.kind = false := by
  -- A keyword may be the first word of two, of which the second is left to be taken.
  have htwo : ∀ {second : Keyword} {two one : Option (Operator × Token)} {t t' : Token},
      endsLine p.token.kind = false → (endsLine p.token.kind = false →
        ∃ q, p.Next q ∧ t = q.token ∧ t' = q.token.shift F.bytes) →
      Alike F p (Option.map (Prod.map id (Token.shift F.bytes)))
        (if t.keyword? == some second then do
          let _ ← Parser.advance
          return two
        else return one)
        (if t'.keyword? == some second then do
          let _ ← Parser.advance
          return two.map (Prod.map id (Token.shift F.bytes))
        else return one.map (Prod.map id (Token.shift F.bytes)))
        fun found q => found.isSome = true → endsLine q.token.kind = false := by
    intro second two one t t' hline ht
    obtain ⟨q, hq, rfl, rfl⟩ := ht hline
    refine ite (fun hsecond => advance (Frame.not_isEnd hline) fun u hu => ret rfl fun _ => ?_)
      fun _ => ret rfl fun _ => hline
    obtain ⟨htoken, -⟩ := List.cons.inj (hq.after.symm.trans hu.after)
    exact htoken ▸ endsLine_of_keyword? (eq_of_beq hsecond)
  refine peek (peekSecond fun t t' ht => ?_)
  obtain ⟨⟨range, lexeme⟩, after, nodes, depth⟩ := p
  cases lexeme with
  | operator op => exact ret (by split <;> rfl) fun _ => rfl
  | keyword keyword =>
    cases keyword with
    | «in» => exact ret rfl fun _ => rfl
    | is => exact htwo rfl ht
    | not => exact htwo rfl ht
    | _ => exact ret rfl nofun
  | _ => exact ret rfl nofun

/-- Comparisons may be read. -/
theorem comparison (hw : 4 * p.after.length < w) :
    AlikeNode F p (Grammar.comparison call) (Grammar.comparison call') := by
  refine (bitwiseOr hcall hw).bind fun first q hq hfirst => ?_
  refine foldNodes hfirst fun left u hu hleft => ?_
  refine comparisonOperator.bind fun found v hv hend => ?_
  cases found with
  | none => exact ret rfl (Nat.lt_of_lt_of_le hleft hv.2.1)
  | some found =>
    refine advance (Frame.not_isEnd (hend rfl)) fun r hr => ?_
    have hlt := hr.lt
    refine (bitwiseOr hcall (by omega)).bind fun right t ht _ => ?_
    exact binary.bind fun id _ _ hid => ret rfl ⟨hid, by omega⟩

/-- A negated expression may be read. -/
theorem notTest (hw : 4 * p.after.length < w) :
    AlikeNode F p (Grammar.notTest call) (Grammar.notTest call') := by
  refine consumeKeyword (fun _ q hq => ?_) (comparison hcall hw)
  have hlt := hq.lt
  have hinner : AlikeNode F q (Parser.nested (call .notTest)) (Parser.nested (call' .notTest)) :=
    nestedRule hcall rfl (by simp only [Rule.rank]; omega) trivial
  exact hinner.bind fun id _ _ _ => node rfl rfl

/-- Expressions joined by `or` and `and` may be read. -/
theorem orTest (hw : 4 * p.after.length < w) :
    AlikeNode F p (Grammar.orTest call) (Grammar.orTest call') :=
  keywordChain .or .or fun _ hq => keywordChain .and .and fun _ hu => notTest hcall (by omega)

/-- An expression of any form may be read. -/
theorem test (hw : 4 * p.after.length < w) :
    AlikeNode F p (Grammar.test call) (Grammar.test call') := by
  unfold Grammar.test
  refine peek (ite (fun hlambda => ?_) fun _ => peekSecond fun t t' ht => ?_)
  · exact nestedRule hcall rfl hw (endsLine_of_keyword? (eq_of_beq hlambda))
  refine nameBefore (fun h => eq_of_beq h) ht (fun title q _ hlt => ?_) ?_
  · exact (nestedTest hcall (by omega)).bind fun right _ _ _ => node rfl rfl
  refine (orTest hcall hw).bind fun first q hq hfirst => ?_
  refine tookKeyword (fun _ u hu => ?_) (ret rfl hfirst)
  have hlt := hu.lt
  refine (orTest hcall (by omega)).bind fun condition v hv _ => ?_
  refine tookKeyword (fun _ r hr => ?_) ?_
  · have hless := hr.lt
    exact (nestedTest hcall (by omega)).bind fun second _ _ _ => node rfl rfl
  · exact fault ((errorNode .missingElse none).bind fun second _ _ _ => node rfl rfl)

/-- An expression unpacked by a star may be read. -/
theorem starOr {other other' : Parser NodeId} (hw : 4 * p.after.length < w)
    (hother : AlikeNode F p other other') :
    AlikeNode F p (Grammar.starOr call other) (Grammar.starOr call' other') := by
  refine consumeOperator (fun _ q hq => ?_) fun _ => hother
  have hlt := hq.lt
  exact (bitwiseOr hcall (by omega)).bind fun id _ _ _ => node rfl rfl

/-- An expression, possibly unpacked, may be read. -/
theorem testOrStar (hw : 4 * p.after.length + 3 < w) :
    AlikeNode F p (Grammar.testOrStar call) (Grammar.testOrStar call') :=
  starOr hcall (by omega) (ofTest hcall hw)

/-- Expressions may be read after a comma. -/
theorem moreTests (hw : 4 * p.after.length ≤ w) :
    AlikeNodes F p (Parser.more Grammar.atExpressionEnd (Grammar.testOrStar call))
      (Parser.more Grammar.atExpressionEnd (Grammar.testOrStar call')) :=
  more (f := Grammar.endsExpression) (fun _ => rfl) (fun _ => rfl) fun _ hq _ =>
    testOrStar hcall (by omega)

/-- Expressions with commas between them may be read as one node. -/
theorem testList (hw : 4 * p.after.length + 3 < w) :
    AlikeNode F p (Grammar.testList call) (Grammar.testList call') := by
  refine currentStart (atExpressionEnd (ite (fun _ => missingExpression) fun _ => ?_))
  refine (testOrStar hcall hw).bind fun first q hq hfirst => ?_
  refine «at» (ite (fun _ => ret rfl hfirst) fun _ => ?_)
  exact (moreTests hcall (by omega)).bind fun rest _ _ _ => node rfl rfl

/-- Expressions with commas between them may be read. -/
theorem testItems (hw : 4 * p.after.length + 3 < w) :
    AlikeNodes F p (Grammar.testItems call) (Grammar.testItems call') := by
  refine atExpressionEnd (ite (fun _ => ?_) fun _ => ?_)
  · exact missingExpression.bind fun id _ _ _ => ret rfl trivial
  · exact separated (f := Grammar.endsExpression) (fun _ => rfl) (fun _ => rfl) fun q hq _ =>
      testOrStar hcall (by omega)

/-- Targets with commas between them may be read as one node. -/
theorem targetList (hw : 4 * p.after.length < w) :
    AlikeNode F p (Grammar.targetList call) (Grammar.targetList call') := by
  have htarget : ∀ {q : Spot}, 4 * q.after.length < w → AlikeNode F q
      (Grammar.starOr call (Grammar.bitwiseOr call))
      (Grammar.starOr call' (Grammar.bitwiseOr call')) :=
    fun hw => starOr hcall hw (bitwiseOr hcall hw)
  refine currentStart ((htarget hw).bind fun first q hq hfirst => ?_)
  refine «at» (ite (fun _ => ret rfl hfirst) fun _ => ?_)
  refine bind (more (f := fun t => t.keyword? == some .in || Grammar.endsExpression t)
    (fun _ => rfl) (fun _ => rfl) fun u hu _ => htarget (by omega)) fun rest _ _ _ => node rfl rfl

/-- A yielding expression may be read. -/
theorem yieldExpression (hend : endsLine p.token.kind = false) (hw : 4 * p.after.length ≤ w) :
    AlikeNode F p (Grammar.yieldExpression call) (Grammar.yieldExpression call') := by
  refine advance (Frame.not_isEnd hend) fun q hq => ?_
  have hlt := hq.lt
  refine tookKeyword (fun _ u hu => ?_) (atExpressionEnd (ite (fun _ => node rfl rfl) fun _ => ?_))
  · have hless := hu.lt
    exact (ofTest hcall (by omega)).bind fun id _ _ _ => node rfl rfl
  · exact (mapSome (testList hcall (by omega))).bind fun id _ _ _ => node rfl rfl

omit hcall in
/-- Whether a clause of a comprehension starts may be seen; it starts with a word that the parser
takes, or with one before that. -/
theorem atComprehension {γ δ : Type} {h : γ → δ} {goal : γ → Spot → Prop} {k : Bool → Parser γ}
    {k' : Bool → Parser δ}
    (htrue : p.token.keyword? = some .for ∨ p.token.keyword? = some .async ∧
      (∀ q, p.Next q → q.token.keyword? = some .for) → Alike F p h (k true) (k' true) goal)
    (hfalse : Alike F p h (k false) (k' false) goal) :
    Alike F p h (Grammar.atComprehension >>= k) (Grammar.atComprehension >>= k') goal := by
  suffices hlook : Alike F p h (Parser.peek >>= fun t => Parser.peekSecond >>= fun u =>
        k (t.keyword? == some .for || (t.keyword? == some .async && u.keyword? == some .for)))
      (Parser.peek >>= fun t => Parser.peekSecond >>= fun u =>
        k' (t.keyword? == some .for || (t.keyword? == some .async && u.keyword? == some .for)))
      goal from hlook
  refine peek (peekSecond fun t t' ht => ?_)
  rw [Token.keyword?_shift]
  have hasync : (p.token.keyword? == some .async) = true → endsLine p.token.kind = false :=
    fun h => endsLine_of_keyword? (eq_of_beq h)
  have hsame := second_eq (f := fun t => t.keyword? == some .for) (fun _ => rfl) hasync ht
  rw [hsame]
  cases hfirst : p.token.keyword? == some .for with
  | true => exact htrue (.inl (eq_of_beq hfirst))
  | false =>
    cases hsecond : p.token.keyword? == some .async && t.keyword? == some .for with
    | false => exact hfalse
    | true =>
      rw [Bool.and_eq_true] at hsecond
      obtain ⟨q, hq, rfl, rfl⟩ := ht (hasync hsecond.1)
      refine htrue (.inr ⟨eq_of_beq hsecond.1, fun u hu => ?_⟩)
      obtain ⟨htoken, -⟩ := List.cons.inj (hq.after.symm.trans hu.after)
      exact htoken ▸ eq_of_beq hsecond.2

/-- A clause of a comprehension may be read. -/
theorem comprehensionClause (hw : 4 * p.after.length ≤ w) :
    Alike F p (Option.map (· + F.ids)) (Grammar.comprehensionClause call)
      (Grammar.comprehensionClause call') fun id q =>
        id.isSome = true → q.after.length < p.after.length := by
  unfold Grammar.comprehensionClause
  refine atComprehension (fun hfor => currentStart ?_) (consumeKeyword (fun _ q hq => ?_) ?_)
  · have hline : endsLine p.token.kind = false :=
      hfor.elim endsLine_of_keyword? fun h => endsLine_of_keyword? h.1
    have htook : Alike F p id (Parser.tookKeyword .async) (Parser.tookKeyword .async)
        fun _ q => endsLine q.token.kind = false := by
      refine consumeKeyword (fun hasync q hq => ret rfl ?_) (ret rfl hline)
      rcases hfor with hfor | hfor
      · rw [hasync] at hfor
        cases hfor
      · exact endsLine_of_keyword? (hfor.2 q hq)
    refine htook.bind fun isAsync q hq hend => ?_
    refine advance (Frame.not_isEnd hend) fun u hu => ?_
    have hlt := hu.lt
    refine (targetList hcall (by omega)).bind fun target v hv _ => ?_
    extract_lets rest rest'
    have hrest : ∀ id r, v.Before r → Alike F r (Option.map (· + F.ids)) (rest id)
        (rest' (id + F.ids)) fun id q => id.isSome = true → q.after.length < p.after.length :=
      fun id r hr => bind (node rfl rfl) fun id _ _ _ => ret rfl fun _ => by omega
    refine tookKeyword (fun _ r hr => ?_) (fault ?_)
    · have hless := hr.lt
      exact (orTest hcall (by omega)).bind fun id t ht _ => hrest id t (hr.before.trans ht)
    · exact (errorNode .missingIn none).bind fun id t ht _ => hrest id t ht
  · have hlt := hq.lt
    refine (orTest hcall (by omega)).bind fun condition u hu _ => ?_
    exact bind (node rfl rfl) fun id v hv _ => ret rfl fun _ => by omega
  · exact ret rfl nofun

/-- The clauses of a comprehension may be read after its element. -/
theorem comprehension {expression : NodeId} {start : Nat} (hw : 4 * p.after.length ≤ w) :
    AlikeNode F p (Grammar.comprehension call expression start)
      (Grammar.comprehension call' (expression + F.ids) (start + F.bytes)) := by
  refine bind (many fun q hq => comprehensionClause hcall (by omega)) fun clauses _ _ _ => ?_
  exact node rfl rfl

/-! ## Arguments and subscripts -/

omit hcall in
/-- The stars in front of an argument may be taken. -/
theorem argumentCategory : Alike F p id Grammar.argumentCategory Grammar.argumentCategory
    fun _ _ => True := by
  refine tookOperator (fun _ q hq => ret rfl trivial) ?_
  exact tookOperator (fun _ q hq => ret rfl trivial) (ret rfl trivial)

/-- An argument may be read. -/
theorem argument (hw : 4 * p.after.length + 3 < w) :
    AlikeNode F p (Grammar.argument call) (Grammar.argument call') := by
  unfold Grammar.argument
  refine currentStart (argumentCategory.bind fun category q hq _ => peek ?_)
  refine peekSecond fun t t' ht => ?_
  extract_lets isNamed value isNamed' value'
  have hvalue : ∀ (title : Option NodeId) u, q.Before u →
      AlikeNode F u (value title) (value' (title.map (· + F.ids))) := by
    intro title u hu
    refine (ofTest hcall (by omega)).bind fun first v hv hfirst => ?_
    have hrest : ∀ id r, AlikeNode F r
        (Parser.node p.token.start (.argument category title id))
        (Parser.node (p.token.start + F.bytes)
          (.argument category (title.map (· + F.ids)) (id + F.ids))) :=
      fun id r => node rfl rfl
    refine atComprehension (fun _ => ?_) ?_
    all_goals
      cases title with
      | some title => exact hrest first v
      | none =>
        refine ite (fun _ => ?_) fun _ => hrest first v
        exact (comprehension hcall (by omega)).bind fun id r _ _ => hrest id r
  refine nameBefore (fun h => eq_of_beq (Bool.and_eq_true _ _ ▸ h).2) ht
    (fun title u hu _ => hvalue (some title) u hu) (hvalue none q (.refl q))

/-- Arguments may be read. -/
theorem argumentList (hw : 4 * p.after.length + 3 < w) :
    AlikeNodes F p (Grammar.argumentList call) (Grammar.argumentList call') :=
  separated (f := fun t => t.kind == .closeParenthesis || endsLine t.kind) (fun _ => rfl)
    (fun _ => rfl) fun q hq _ => argument hcall (by omega)

/-- A part of a slice may be read. -/
theorem slicePart (hw : 4 * p.after.length ≤ w) :
    AlikeOption F p (Grammar.slicePart call) (Grammar.slicePart call') := by
  refine took (.inl rfl) (fun _ q hq => ?_) (ret rfl trivial)
  refine peek (ite (fun _ => ret rfl trivial) fun _ => ?_)
  have hlt := hq.lt
  exact (ofTest hcall (by omega)).bind fun _ _ _ _ => ret rfl trivial

/-- A slice or an expression may be read. -/
theorem sliceOrTest (hw : 4 * p.after.length + 3 < w) :
    AlikeNode F p (Grammar.sliceOrTest call) (Grammar.sliceOrTest call') := by
  unfold Grammar.sliceOrTest
  refine currentStart («at» ?_)
  extract_lets rest rest'
  have hrest : ∀ first q, p.Before q → (∀ id, first = some id → id < q.nodes) →
      AlikeNode F q (rest first) (rest' (first.map (· + F.ids))) := by
    intro first q hq hfirst
    have hparts : AlikeNode F q
        (do
          let stop ← Grammar.slicePart call
          let step ← Grammar.slicePart call
          Parser.node p.token.start (.slice first stop step))
        (do
          let stop ← Grammar.slicePart call'
          let step ← Grammar.slicePart call'
          Parser.node (p.token.start + F.bytes) (.slice (first.map (· + F.ids)) stop step)) := by
      refine (slicePart hcall (by omega)).bind fun stop u hu _ => ?_
      exact (slicePart hcall (by omega)).bind fun step _ _ _ => node rfl rfl
    refine «at» ?_
    cases first with
    | none => exact hparts
    | some first =>
      cases q.token.kind == .colon with
      | false => exact ret rfl (hfirst first rfl)
      | true => exact hparts
  refine ite (fun _ => hrest none p (.refl p) nofun) fun _ => ?_
  have htest : Alike F p (Option.map (· + F.ids)) (some <$> call .test) (some <$> call' .test)
      fun first q => ∀ id, first = some id → id < q.nodes :=
    map (ofTest hcall hw) (fun _ => rfl) fun id q _ hid _ heq => Option.some.inj heq ▸ hid
  exact htest.bind hrest

/-- A subscript may be read. -/
theorem subscript (hw : 4 * p.after.length + 3 < w) :
    AlikeNode F p (Grammar.subscript call) (Grammar.subscript call') := by
  refine currentStart (tookOperator (fun _ q hq => ?_) ?_)
  · have hlt := hq.lt
    exact (bitwiseOr hcall (by omega)).bind fun value _ _ _ => node rfl rfl
  · exact (sliceOrTest hcall hw).bind fun value _ _ _ => node rfl rfl

/-- Subscripts may be read; an error node stands for missing ones. -/
theorem subscriptList (hw : 4 * p.after.length + 3 < w) :
    AlikeNodes F p (Grammar.subscriptList call) (Grammar.subscriptList call') := by
  refine look (f := fun t => t.kind == .closeBracket || endsLine t.kind) (fun _ => rfl)
    (fun _ => rfl) (ite (fun _ => ?_) fun _ => ?_)
  · refine fault ((errorNode .missingIndexOrSlice none).bind fun error q hq herror => ?_)
    refine inspect fun s s' hs => ?_
    obtain ⟨r, hr, hr'⟩ := hs.range? herror
    rw [hr, hr']
    refine bind (addNode rfl ?_ rfl) fun id _ _ _ => ret rfl trivial
    show max (r.shift F.bytes).stop (r.shift F.bytes).start = max r.stop r.start + F.bytes
    rw [TextRange.stop_shift, TextRange.start_shift, Nat.add_max_add_right]
  · exact separated (f := fun t => t.kind == .closeBracket || endsLine t.kind) (fun _ => rfl)
      (fun _ => rfl) fun q hq _ => subscript hcall (by omega)

omit hcall in
/-- Strings side by side may be read. -/
theorem stringList : AlikeNode F p Grammar.stringList Grammar.stringList := by
  refine currentStart (bind (many (g := (· + F.ids)) fun q hq => peek ?_) fun strings _ _ _ =>
    node rfl rfl)
  obtain ⟨⟨range, lexeme⟩, after, nodes⟩ := q
  cases lexeme with
  | string literal =>
    refine advance (Frame.not_isEnd rfl) fun u hu => ?_
    have hlt := hu.lt
    exact bind (tokenNode (by split <;> rfl)) fun id v hv _ => ret rfl fun _ => by omega
  | _ => exact ret rfl nofun

/-! ## Displays -/

/-- What stands between parentheses may be read after the first one. -/
theorem parenthesizedContent {opening : Token} (hw : 4 * p.after.length + 3 < w) :
    AlikeNode F p (Grammar.parenthesizedContent call opening)
      (Grammar.parenthesizedContent call' (opening.shift F.bytes)) := by
  refine «at» (ite (fun _ => tokenNode rfl) fun _ => atKeyword (ite (fun hyield => ?_) fun _ => ?_))
  · exact yieldExpression hcall (endsLine_of_keyword? (eq_of_beq hyield)) (by omega)
  refine currentStart ((testOrStar hcall hw).bind fun first q hq hfirst => ?_)
  refine atComprehension (fun _ => comprehension hcall (by omega)) ?_
  refine «at» (ite (fun _ => ret rfl hfirst) fun _ => ?_)
  exact (moreTests hcall (by omega)).bind fun rest _ _ _ => node rfl rfl

/-- An expression in parentheses may be read; they widen it. -/
theorem parenthesized (hend : endsLine p.token.kind = false) (hw : 4 * p.after.length ≤ w) :
    AlikeNode F p (Grammar.parenthesized call) (Grammar.parenthesized call') := by
  refine advance (Frame.not_isEnd hend) fun q hq => ?_
  have hlt := hq.lt
  refine (parenthesizedContent hcall (by omega)).bind fun expression u hu hexpression => ?_
  refine (tookAny (.inl rfl)).bind fun closed v hv _ => previousStop fun stop stop' hstop => ?_
  refine change (fun s s' hs => hs.withArena ?_ (Arena.size_widened ..))
    (closing closed expression (Nat.lt_of_lt_of_le hexpression hv.2.1) _ _)
  rw [hs.arena]
  exact Arena.widened_behind hstop

/-- The entries of a list display may be read. -/
theorem listEntries (hw : 4 * p.after.length + 3 < w) :
    AlikeNodes F p (Grammar.listEntries call) (Grammar.listEntries call') := by
  refine «at» (ite (fun _ => ret rfl trivial) fun _ => currentStart ?_)
  refine (testOrStar hcall hw).bind fun first q hq hfirst => ?_
  refine atComprehension (fun _ => ?_) ?_
  · exact (comprehension hcall (by omega)).bind fun id _ _ _ => ret rfl trivial
  · exact (moreTests hcall (by omega)).bind fun rest _ _ _ => ret rfl trivial

/-- A list display may be read. -/
theorem listDisplay (hend : endsLine p.token.kind = false) (hw : 4 * p.after.length ≤ w) :
    AlikeNode F p (Grammar.listDisplay call) (Grammar.listDisplay call') := by
  refine advance (Frame.not_isEnd hend) fun q hq => ?_
  have hlt := hq.lt
  refine (listEntries hcall (by omega)).bind fun entries u hu _ => ?_
  refine (tookAny (.inl rfl)).bind fun closed v hv _ => bind (node rfl rfl) fun id r hr hid => ?_
  exact closing closed id hid _ _

/-- An entry in braces may be read. -/
theorem braceEntry (given : Option Bool) (hw : 4 * p.after.length + 3 < w) :
    Alike F p (Prod.map (· + F.ids) id) (Grammar.braceEntry call given)
      (Grammar.braceEntry call' given) fun entry q => entry.1 < q.nodes := by
  refine currentStart (consumeOperator (fun _ q hq => ?_) fun _ => ?_)
  · have hlt := hq.lt
    refine (bitwiseOr hcall (by omega)).bind fun expression _ _ _ => ?_
    exact bind (node rfl rfl) fun entry _ _ hentry => ret rfl hentry
  · refine (testOrStar hcall hw).bind fun key q hq hkey => «at» ?_
    refine ite (fun _ => ret rfl hkey) fun _ => expect (.inl rfl) fun _ u hu => ?_
    refine (ofTest hcall (by omega)).bind fun value _ _ _ => ?_
    exact bind (node rfl rfl) fun entry _ _ hentry => ret rfl hentry

/-- The entries in braces may be read. -/
theorem braceEntries (hw : 4 * p.after.length + 3 < w) :
    Alike F p (Prod.map (List.map (· + F.ids)) id) (Grammar.braceEntries call)
      (Grammar.braceEntries call') fun _ _ => True := by
  refine look (f := fun t => t.kind == .closeCurlyBrace || endsLine t.kind) (fun _ => rfl)
    (fun _ => rfl) (ite (fun _ => ret rfl trivial) fun _ => currentStart ?_)
  refine (braceEntry hcall none hw).bind fun first q hq _ => atComprehension (fun _ => ?_) ?_
  · exact (comprehension hcall (by omega)).bind fun id _ _ _ => ret rfl trivial
  · refine bind (more (f := fun t => t.kind == .closeCurlyBrace || endsLine t.kind) (fun _ => rfl)
      (fun _ => rfl) fun u hu _ => ?_) fun rest _ _ _ => ret rfl trivial
    exact map (braceEntry hcall _ (by omega)) (fun _ => rfl) fun _ _ _ h => h

/-- A dictionary or set display may be read. -/
theorem braceDisplay (hend : endsLine p.token.kind = false) (hw : 4 * p.after.length ≤ w) :
    AlikeNode F p (Grammar.braceDisplay call) (Grammar.braceDisplay call') := by
  refine advance (Frame.not_isEnd hend) fun q hq => ?_
  have hlt := hq.lt
  refine (braceEntries hcall (by omega)).bind fun entries u hu _ => ?_
  refine expect (.inl rfl) fun _ v hv => node rfl ?_
  obtain ⟨entries, isDictionary⟩ := entries
  cases isDictionary <;> rfl

/-! ## Atoms -/

omit hcall in
/-- An error node may stand for an expression, past a token that cannot start one. -/
theorem strayToken : AlikeNode F p (Grammar.strayToken p.token)
    (Grammar.strayToken (p.token.shift F.bytes)) := by
  refine fault (advanceIf (fun hstray => ?_) (fun _ q hq => errorNode _ none)
    fun _ => errorNode _ none)
  obtain ⟨⟨range, lexeme⟩, after, nodes, depth⟩ := p
  refine Frame.not_isEnd ?_
  cases lexeme with
  | newLine => cases hstray
  | endOfStream => cases hstray
  | _ => rfl

/-- An atom may be read. -/
theorem atom (hw : 4 * p.after.length ≤ w) :
    AlikeNode F p (Grammar.atom call) (Grammar.atom call') := by
  refine peek ?_
  have hstray := strayToken (F := F) (p := p)
  obtain ⟨⟨range, lexeme⟩, after, nodes, depth⟩ := p
  cases lexeme with
  | identifier => exact advance (Frame.not_isEnd rfl) fun q hq => nameNode
  | number => exact advance (Frame.not_isEnd rfl) fun q hq => tokenNode rfl
  | string => exact stringList
  | keyword keyword =>
    exact ite (fun _ => advance (Frame.not_isEnd rfl) fun q hq => tokenNode rfl) fun _ => hstray
  | ellipsis => exact advance (Frame.not_isEnd rfl) fun q hq => tokenNode rfl
  | openParenthesis => exact parenthesized hcall rfl hw
  | openBracket => exact listDisplay hcall rfl hw
  | openCurlyBrace => exact braceDisplay hcall rfl hw
  | _ => exact hstray

/-- A call, a subscript or a member may be read after an expression. -/
theorem trailer (expression : NodeId) (hexpression : expression < p.nodes)
    (hw : 4 * p.after.length ≤ w) :
    Alike F p (Option.map (Prod.map (· + F.ids) id)) (Grammar.trailer call expression)
      (Grammar.trailer call' (expression + F.ids)) fun found q =>
        found.elim (expression < q.nodes) fun found =>
          found.1 < q.nodes ∧ q.after.length < p.after.length := by
  unfold Grammar.trailer
  refine inspect fun s s' hs => ?_
  have hstart : s'.arena.startOf (expression + F.ids) = s.arena.startOf expression + F.bytes := by
    obtain ⟨r, hr, hr'⟩ := hs.range? hexpression
    rw [Arena.startOf, Arena.startOf, hr, hr']
    rfl
  rw [hstart]
  extract_lets start start'
  have hclosing : ∀ (closed : Bool) (whole : NodeId) (spelling : String)
      (category : ErrorCategory) q, whole < q.nodes → q.after.length < p.after.length →
      Alike F q (Option.map (Prod.map (· + F.ids) id))
        (do return some (← Grammar.closing closed whole spelling category, closed))
        (do return some (← Grammar.closing closed (whole + F.ids) spelling category, closed))
        fun found u => found.elim (expression < u.nodes) fun found =>
          found.1 < u.nodes ∧ u.after.length < p.after.length := by
    intro closed whole spelling category q hwhole hlt
    refine (closing closed whole hwhole spelling category).bind fun id u hu hid => ?_
    exact ret rfl ⟨hid, by omega⟩
  refine took (.inl rfl) (fun _ q hq => ?_) (took (.inl rfl) (fun _ q hq => ?_)
    (took (.inl rfl) (fun _ q hq => ?_) (ret rfl hexpression)))
  · have hlt := hq.lt
    refine (argumentList hcall (by omega)).bind fun arguments u hu _ => ?_
    refine (tookAny (.inl rfl)).bind fun closed v hv _ => bind (node rfl rfl) fun id r hr hid => ?_
    exact hclosing closed id _ _ r hid (by omega)
  · have hlt := hq.lt
    refine (subscriptList hcall (by omega)).bind fun items u hu _ => ?_
    refine (tookAny (.inl rfl)).bind fun closed v hv _ => bind (node rfl rfl) fun id r hr hid => ?_
    exact hclosing closed id _ _ r hid (by omega)
  · have hlt := hq.lt
    refine consume (.inl rfl) (fun _ u hu => ?_) (fault ?_)
    · have hless := hu.lt
      refine nameNode.bind fun member v hv _ => bind (node rfl rfl) fun id r hr hid => ?_
      exact ret rfl ⟨hid, by omega⟩
    · refine (errorNode _ (some expression)).bind fun id u hu hid => ?_
      exact ret rfl ⟨hid, by omega⟩

/-- An atom with what follows it may be read. -/
theorem atomExpression (hw : 4 * p.after.length ≤ w) :
    AlikeNode F p (Grammar.atomExpression call) (Grammar.atomExpression call') := by
  refine (atom hcall hw).bind fun first q hq hfirst => ?_
  refine bind (foldMany (g := Prod.map (· + F.ids) id) (a := (first, true))
    (I := fun found u => found.1 < u.nodes) (J := fun found u => found.1 < u.nodes) hfirst
    fun found u hu hfound => ?_) fun found _ _ hfound => ret rfl hfound
  exact ite (fun _ => trailer hcall found.1 hfound (by omega)) fun _ => ret rfl hfound

/-! ## Functions without a name -/

omit hcall in
/-- The stars in front of a parameter may be taken; without them the next token stays. -/
theorem parameterCategory : Alike F p id Grammar.parameterCategory Grammar.parameterCategory
    fun category q => category = .simple → q.token = p.token := by
  refine tookOperator (fun _ q hq => ret rfl nofun) ?_
  exact tookOperator (fun _ q hq => ret rfl nofun) (ret rfl fun _ => rfl)

/-- A parameter may be read. -/
theorem parameter (allowHints : Bool) (hend : endsLine p.token.kind = false)
    (hw : 4 * p.after.length + 3 < w) :
    AlikeNode F p (Grammar.parameter call allowHints) (Grammar.parameter call' allowHints) := by
  unfold Grammar.parameter
  refine currentStart (parameterCategory.bind fun category q hq hsimple => ?_)
  extract_lets afterTitle unnamed afterTitle' unnamed'
  -- What comes after the name, and after the hint, is read in one way with and without these.
  have hafterTitle : ∀ (title : Option NodeId) u, q.Before u →
      AlikeNode F u (afterTitle title) (afterTitle' (title.map (· + F.ids))) := by
    intro title u hu
    unfold afterTitle afterTitle'
    extract_lets afterHint afterHint'
    have hafterHint : ∀ (hint : Option NodeId) v, u.Before v →
        AlikeNode F v (afterHint hint) (afterHint' (hint.map (· + F.ids))) := by
      intro hint v hv
      refine tookOperator (fun _ r hr => ?_) (node rfl rfl)
      have hlt := hr.lt
      exact (mapSome (ofTest hcall (by omega))).bind fun value _ _ _ => node rfl rfl
    refine iteOf ?_ (fun _ => took (.inl rfl) (fun _ v hv => ?_) (hafterHint none u (.refl u)))
      fun _ => hafterHint none u (.refl u)
    · rw [Option.isSome_map]
    · have hlt := hv.lt
      exact (mapSome (ofTest hcall (by omega))).bind fun hint r hr _ =>
        hafterHint hint r (hv.before.trans hr)
  refine consume (.inl rfl) (fun _ u hu => ?_) (ite (fun hcategory => ?_) fun _ => ?_)
  · exact (mapSome nameNode).bind fun title v hv _ => hafterTitle title v (hu.before.trans hv)
  · refine tookOperator (fun _ u hu => hafterTitle none u hu.before) (fault (advance ?_ ?_))
    · rw [hsimple (eq_of_beq hcategory)]
      exact Frame.not_isEnd hend
    · exact fun u hu => hafterTitle none u hu.before
  · exact hafterTitle none q (.refl q)

/-- Parameters may be read. -/
theorem parameterList (terminator : TokenKind) (allowHints : Bool)
    (hw : 4 * p.after.length + 3 < w) :
    AlikeNodes F p (Grammar.parameterList call terminator allowHints)
      (Grammar.parameterList call' terminator allowHints) := by
  refine separated (f := fun t => t.kind == terminator || endsLine t.kind) (fun _ => rfl)
    (fun _ => rfl) fun q hq hgoesOn => parameter hcall allowHints ?_ (by omega)
  rw [Bool.or_eq_false_iff] at hgoesOn
  exact hgoesOn.2

/-- A function without a name may be read. -/
theorem lambda (hend : endsLine p.token.kind = false) (hw : 4 * p.after.length ≤ w) :
    AlikeNode F p (Grammar.lambda call) (Grammar.lambda call') := by
  refine advance (Frame.not_isEnd hend) fun q hq => ?_
  have hlt := hq.lt
  refine (parameterList hcall .colon false (by omega)).bind fun parameters u hu _ => ?_
  refine expect (.inl rfl) fun _ v hv => atExpressionEnd (ite (fun _ => ?_) fun _ => ?_)
  · exact missingExpression.bind fun id _ _ _ => node rfl rfl
  · exact (ofTest hcall (by omega)).bind fun id _ _ _ => node rfl rfl

end Rules

end Alike

end TypeProbe
