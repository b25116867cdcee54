import TypeProbe.Proofs.Tree.Parts
import TypeProbe.Tree.Parsed

/-!
# Parts of expressions

The rules for expressions keep an arena shaped and give expressions, which are made of expressions
again: what a named expression gives a value to is a name, and a function without a name takes
parameters.
-/

open TypeProbe.Parser

namespace TypeProbe

/-- Whether a rule gives an expression. -/
def Rule.isInline : Rule → Bool
  | .test | .lambda | .notTest | .factor | .atomExpression => true
  | .statement | .ifStatement | .assignment _ _ => false

/-- Every rule keeps an arena shaped. -/
structure RulesShape (call : Rules) : Prop where
  /-- The rules for expressions give expressions. -/
  inline : ∀ rule : Rule, rule.isInline = true → ∀ K, Inlines K (call rule)
  /-- The rules for statements go on from expressions. -/
  plain : ∀ (rule : Rule) K, (∀ left ∈ rule.given?.toList, (left, .inline) ∈ K) →
    Shapes K (call rule) fun _ => []

namespace Shapes

variable {K : Known} {left right : NodeId}

/-- Whether an expression goes on may be seen. -/
theorem atExpressionEnd : Shapes K Grammar.atExpressionEnd fun _ => [] := read fun _ => rfl

/-- Whether a clause of a comprehension starts may be seen. -/
theorem atComprehension : Shapes K Grammar.atComprehension fun _ => [] := read fun _ => rfl

/-- An error node may stand for an expression. -/
theorem missingExpression : Inlines K Grammar.missingExpression :=
  (fault _).bind fun _ => errorNode _ nofun

/-- Two operands may become one node. -/
theorem binary (op : Operator) (token : Token) (hleft : (left, .inline) ∈ K)
    (hright : (right, .inline) ∈ K) : Inlines K (Grammar.binary left op token right) :=
  (read fun _ => rfl).bind fun _ => inline rfl rfl (by simp [Form.children, hleft, hright])

/-- Operands may be joined by a keyword. -/
theorem keywordChain (keyword : Keyword) (op : Operator) {operand : Parser NodeId}
    (hoperand : ∀ K, Inlines K operand) :
    Inlines K (Grammar.keywordChain keyword op operand) := by
  refine (hoperand K).bind fun first => foldInline fun K left => ?_
  refine (consumeKeyword keyword).bind fun token => ?_
  cases token with
  | none => exact ret
  | some token =>
    refine (hoperand _).bind fun right => ?_
    exact (binary op token (by simp) (by simp)).bind fun _ => giveInline (by simp)

/-- Operands may be joined by operators of several strengths. -/
theorem binaryLevels {operand : Parser NodeId} (hoperand : ∀ K, Inlines K operand)
    (levels : Nat) (K : Known) : Inlines K (Grammar.binaryLevels operand levels) := by
  induction levels generalizing K with
  | zero => exact hoperand K
  | succ levels ih =>
    refine (ih K).bind fun first => foldInline fun K left => look.bind fun token => ?_
    cases token.operator? with
    | none => exact ret
    | some op =>
      refine ite ret (advance.bind fun token => (ih _).bind fun right => ?_)
      exact (binary op token (by simp) (by simp)).bind fun _ => giveInline (by simp)

/-- A construct may be closed, or become part of an error node. -/
theorem closing (closed : Bool) {id : NodeId} (hid : (id, .inline) ∈ K) (spelling : String)
    (category : ErrorCategory) : Inlines K (Grammar.closing closed id spelling category) := by
  refine ite (give (by simp [hid])) ((fault _).bind fun _ => skipToEndOfLine.bind fun _ => ?_)
  exact errorNode _ (by simp [hid])

section Rules

variable {call : Rules} (hcall : RulesShape call)
include hcall

/-- A power may be read. -/
theorem power : Inlines K (Grammar.power call) := by
  unfold Grammar.power
  refine (consumeKeyword .await).bind fun token => ?_
  extract_lets rest
  have hrest : ∀ K left, (left, .inline) ∈ K → Inlines K (rest left) := by
    intro K left hleft
    refine (consumeOperator .power).bind fun token => ?_
    cases token with
    | none => exact give (by simp [hleft])
    | some token =>
      refine (nested (hcall.inline .factor rfl)).bind fun right => ?_
      exact binary .power token (by simp [hleft]) (by simp)
  have hatom : ∀ {K}, Inlines K (Parser.nested (call .atomExpression)) :=
    nested (hcall.inline .atomExpression rfl)
  cases token with
  | none => exact hatom.bind fun left => hrest _ left (by simp)
  | some token =>
    refine hatom.bind fun id => bind (inline rfl rfl ?_) fun left => hrest _ left (by simp)
    simp [Form.children]

/-- An expression with a sign may be read. -/
theorem factor (K : Known) : Inlines K (Grammar.factor call) := by
  refine look.bind fun token => ?_
  cases token.operator? with
  | none => exact power hcall
  | some op =>
    refine ite (power hcall) (advance.bind fun token => ?_)
    refine (nested (hcall.inline .factor rfl)).bind fun id => inline rfl rfl ?_
    simp [Form.children]

/-- Binary operations may be read. -/
theorem bitwiseOr (K : Known) : Inlines K (Grammar.bitwiseOr call) :=
  binaryLevels (factor hcall) 6 K

omit hcall in
/-- A comparing operator may be seen, and its first word taken if it has two. -/
theorem comparisonOperator : Shapes K Grammar.comparisonOperator fun _ => [] := by
  refine look.bind fun token => (read fun _ => rfl).bind fun second => ?_
  dsimp only
  split
  · exact ret
  · exact ret
  · exact ite (advance.bind fun _ => ret) ret
  · exact ite (advance.bind fun _ => ret) ret
  · exact ret

/-- Comparisons may be read. -/
theorem comparison : Inlines K (Grammar.comparison call) := by
  refine (bitwiseOr hcall K).bind fun first => foldInline fun K left => ?_
  refine comparisonOperator.bind fun found => ?_
  cases found with
  | none => exact ret
  | some found =>
    refine advance.bind fun _ => (bitwiseOr hcall _).bind fun right => ?_
    exact (binary found.1 found.2 (by simp) (by simp)).bind fun _ => giveInline (by simp)

/-- A negated expression may be read. -/
theorem notTest (K : Known) : Inlines K (Grammar.notTest call) := by
  refine (consumeKeyword .not).bind fun token => ?_
  cases token with
  | none => exact comparison hcall
  | some token =>
    refine (nested (hcall.inline .notTest rfl)).bind fun id => inline rfl rfl ?_
    simp [Form.children]

/-- Expressions joined by `or` and `and` may be read. -/
theorem orTest (K : Known) : Inlines K (Grammar.orTest call) :=
  keywordChain .or .or fun _ => keywordChain .and .and (notTest hcall)

/-- An expression of any form may be read; what a named expression gives a value to is a name. -/
theorem test : Inlines K (Grammar.test call) := by
  unfold Grammar.test
  refine look.bind fun token => ite (nested (hcall.inline .lambda rfl)) ?_
  refine (read fun _ => rfl).bind fun second => ite ?_ ?_
  · refine advance.bind fun token => nameNode.bind fun title => advance.bind fun _ => ?_
    refine (nested (hcall.inline .test rfl)).bind fun right => asInline (node ?_ nofun) rfl
    simp [Form.fixedParts]
  refine (orTest hcall _).bind fun first => (tookKeyword .if).bind fun conditional => ?_
  refine ite (give (by simp)) ?_
  refine (orTest hcall _).bind fun condition => (tookKeyword .else).bind fun found => ?_
  extract_lets rest
  have hrest : ∀ K id, (first, .inline) ∈ K → (condition, .inline) ∈ K → (id, .inline) ∈ K →
      Inlines K (rest id) := fun K id hfirst hcondition hid =>
    inline rfl rfl (by simp [Form.children, hfirst, hcondition, hid])
  refine ite ?_ ((fault _).bind fun _ => ?_)
  · refine (nested (hcall.inline .test rfl)).bind fun id => hrest _ id ?_ ?_ ?_ <;> simp
  · refine (errorNode .missingElse (by simp)).bind fun id => hrest _ id ?_ ?_ ?_ <;> simp

/-- An expression unpacked by a star may be read. -/
theorem starOr {other : Parser NodeId} (hother : ∀ K, Inlines K other) (K : Known) :
    Inlines K (Grammar.starOr call other) := by
  refine (consumeOperator .multiply).bind fun star => ?_
  cases star with
  | none => exact hother K
  | some star =>
    exact (bitwiseOr hcall _).bind fun id => inline rfl rfl (by simp [Form.children])

/-- An expression, possibly unpacked, may be read. -/
theorem testOrStar (K : Known) : Inlines K (Grammar.testOrStar call) :=
  starOr hcall (hcall.inline .test rfl) K

omit hcall in
/-- Expressions may become one node with the first of them. -/
theorem tuple {start : Nat} {first : NodeId} {rest : List NodeId} {parenthesized : Bool} :
    Inlines (allOf .inline rest ++ ((first, .inline) :: K))
      (Parser.node start (.tuple (first :: rest) parenthesized)) :=
  inline rfl rfl (by simp +contextual [Form.children])

/-- Expressions with commas between them may be read as one node. -/
theorem testList : Inlines K (Grammar.testList call) := by
  refine currentStart.bind fun start => atExpressionEnd.bind fun stop => ite missingExpression ?_
  refine (testOrStar hcall _).bind fun first => (read fun _ => rfl).bind fun comma => ?_
  refine ite (give (by simp)) ?_
  exact (moreInline (fun _ => atExpressionEnd) (testOrStar hcall)).bind fun rest => tuple

/-- Expressions with commas between them may be read. -/
theorem testItems : Shapes K (Grammar.testItems call) fun _ => [] :=
  atExpressionEnd.bind fun _ => ite (missingExpression.bind fun _ => ret)
    (drop (separatedInline (fun _ => atExpressionEnd) (testOrStar hcall)))

/-- Targets with commas between them may be read as one node. -/
theorem targetList : Inlines K (Grammar.targetList call) := by
  have htarget := starOr hcall (bitwiseOr hcall)
  refine currentStart.bind fun start => (htarget _).bind fun first => ?_
  refine (read fun _ => rfl).bind fun comma => ite (give (by simp)) ?_
  exact (moreInline (fun _ => read fun _ => rfl) htarget).bind fun rest => tuple

/-- A yielding expression may be read. -/
theorem yieldExpression : Inlines K (Grammar.yieldExpression call) := by
  unfold Grammar.yieldExpression
  refine advance.bind fun token => ?_
  extract_lets start rest
  have hrest : ∀ K (id : Option NodeId), (∀ c ∈ id.toList, (c, .inline) ∈ K) →
      Inlines K (rest id) := fun K id hid => inline rfl rfl hid
  refine (tookKeyword .from).bind fun found => ite ?_ (atExpressionEnd.bind fun stop => ?_)
  · exact (hcall.inline .test rfl _).bind fun id => inline rfl rfl (by simp [Form.children])
  · exact ite (hrest _ none (List.forall_mem_nil _))
      (bind (N := fun id => allOf .inline id.toList) (map (testList hcall)) fun id =>
        hrest _ id (by simp +contextual))

/-- A clause of a comprehension may be read. -/
theorem comprehensionClause (K : Known) :
    Shapes K (Grammar.comprehensionClause call) fun id => allOf .inline id.toList := by
  unfold Grammar.comprehensionClause
  refine atComprehension.bind fun found => ite ?_ ?_
  · refine currentStart.bind fun start => (tookKeyword .async).bind fun isAsync => ?_
    refine advance.bind fun _ => (targetList hcall).bind fun target => ?_
    refine (tookKeyword .in).bind fun found => ?_
    extract_lets rest
    have hrest : ∀ K id, (target, .inline) ∈ K → (id, .inline) ∈ K →
        Shapes K (rest id) fun id => allOf .inline id.toList := fun K id htarget hid =>
      bind (inline rfl rfl (by simp [Form.children, htarget, hid])) fun _ => giveInline (by simp)
    refine ite ?_ ((fault _).bind fun _ => ?_)
    · exact (orTest hcall _).bind fun id => hrest _ id (by simp) (by simp)
    · exact (errorNode .missingIn (by simp)).bind fun id => hrest _ id (by simp) (by simp)
  · refine (consumeKeyword .if).bind fun token => ?_
    cases token with
    | none => exact ret
    | some token =>
      refine (orTest hcall _).bind fun condition => ?_
      exact bind (inline rfl rfl (by simp [Form.children])) fun _ => giveInline (by simp)

/-- The clauses of a comprehension may be read after its element. -/
theorem comprehension {expression : NodeId} (hexpression : (expression, .inline) ∈ K)
    (start : Nat) : Inlines K (Grammar.comprehension call expression start) :=
  (manyInline (comprehensionClause hcall)).bind fun clauses =>
    inline rfl rfl (by simp +contextual [Form.children, hexpression])

/-! ## Arguments and subscripts -/

omit hcall in
/-- The stars in front of an argument may be taken. -/
theorem argumentCategory : Shapes K Grammar.argumentCategory fun _ => [] :=
  (tookOperator .multiply).bind fun _ => ite ret ((tookOperator .power).bind fun _ => ite ret ret)

/-- An argument may be read. -/
theorem argument (K : Known) : Inlines K (Grammar.argument call) := by
  unfold Grammar.argument
  refine currentStart.bind fun start => argumentCategory.bind fun category => ?_
  refine look.bind fun token => (read fun _ => rfl).bind fun second => ?_
  extract_lets isNamed value
  have hvalue : ∀ K (title : Option NodeId), (∀ c ∈ title.toList, (c, .inline) ∈ K) →
      Inlines K (value title) := by
    intro K title htitle
    refine (hcall.inline .test rfl _).bind fun first => atComprehension.bind fun found => ?_
    extract_lets rest
    have hrest : ∀ K id, (∀ c ∈ title.toList, (c, .inline) ∈ K) → (id, .inline) ∈ K →
        Inlines K (rest id) := fun K id htitle hid =>
      inline rfl rfl (by simpa [Form.children, or_imp, forall_and, hid] using htitle)
    refine ite ((comprehension hcall (by simp) start).bind fun id => hrest _ id ?_ (by simp))
      (hrest _ first ?_ (by simp))
    · exact fun c hc => by simp [htitle c hc]
    · exact fun c hc => by simp [htitle c hc]
  refine ite ?_ (hvalue _ none (by simp))
  refine advance.bind fun token => (asInline nameNode rfl).bind fun title => ?_
  exact advance.bind fun _ => hvalue _ (some title) (by simp)

/-- Arguments may be read. -/
theorem argumentList : Shapes K (Grammar.argumentList call) (allOf .inline) :=
  separatedInline (fun _ => read fun _ => rfl) (argument hcall)

/-- A part of a slice may be read. -/
theorem slicePart : Shapes K (Grammar.slicePart call) fun id => allOf .inline id.toList :=
  (took .colon).bind fun _ => ite ret (look.bind fun _ => ite ret
    ((hcall.inline .test rfl _).bind fun _ => giveInline (by simp)))

/-- A slice or an expression may be read. -/
theorem sliceOrTest : Inlines K (Grammar.sliceOrTest call) := by
  unfold Grammar.sliceOrTest
  refine currentStart.bind fun start => (read fun _ => rfl).bind fun colon => ?_
  extract_lets rest
  have hrest : ∀ K (first : Option NodeId),
      Inlines (allOf .inline first.toList ++ K) (rest first) := by
    intro K first
    refine (read fun _ => rfl).bind fun goesOn => ?_
    have hparts : Inlines (allOf .inline first.toList ++ K) (do
        let stop ← Grammar.slicePart call
        let step ← Grammar.slicePart call
        Parser.node start (.slice first stop step)) :=
      (slicePart hcall).bind fun stop => (slicePart hcall).bind fun step => inline rfl rfl (by
        simp +contextual [Form.children, or_imp])
    cases first with
    | none => exact hparts
    | some first =>
      cases goesOn with
      | false => exact give (by simp [allOf])
      | true => exact hparts
  exact ite (hrest _ none) (bind (N := fun id => allOf .inline id.toList)
    (map (hcall.inline .test rfl _)) (hrest _))

/-- A subscript may be read. -/
theorem subscript (K : Known) : Inlines K (Grammar.subscript call) := by
  refine currentStart.bind fun start => (tookOperator .multiply).bind fun star => ite ?_ ?_
  · exact (bitwiseOr hcall _).bind fun value => inline rfl rfl (by simp [Form.children])
  · exact (sliceOrTest hcall).bind fun value => inline rfl rfl (by simp [Form.children])

/-- Subscripts may be read; an error node stands for missing ones. -/
theorem subscriptList : Shapes K (Grammar.subscriptList call) (allOf .inline) := by
  refine (read fun _ => rfl).bind fun stop => ite ?_ ?_
  · refine (fault _).bind fun _ => (errorNode _ (by simp)).bind fun error => ?_
    refine (read fun _ => rfl).bind fun s => bind (addInline rfl rfl ?_) fun _ => ?_
    · simp [Form.children]
    · exact give (by simp [allOf])
  · exact separatedInline (fun _ => read fun _ => rfl) (subscript hcall)

omit hcall in
/-- Strings side by side may be read. -/
theorem stringList : Inlines K Grammar.stringList := by
  refine currentStart.bind fun start => ?_
  refine (manyInline fun K => look.bind fun token => ?_).bind fun strings =>
    inline rfl rfl (by simp +contextual [Form.children])
  split
  · refine advance.bind fun token => ?_
    split
    · exact bind (addInline rfl rfl (List.forall_mem_nil _)) fun _ => giveInline (by simp)
    · exact bind (addInline rfl rfl (List.forall_mem_nil _)) fun _ => giveInline (by simp)
  · exact ret

/-! ## Displays -/

/-- What stands between parentheses may be read after the first one. -/
theorem parenthesizedContent (opening : Token) :
    Inlines K (Grammar.parenthesizedContent call opening) := by
  refine bind (read fun _ => rfl) fun empty => ite (addInline rfl rfl nofun) ?_
  refine bind (read fun _ => rfl) fun yields => ite (yieldExpression hcall) ?_
  refine currentStart.bind fun start => (testOrStar hcall _).bind fun first => ?_
  refine atComprehension.bind fun found => ite (comprehension hcall (by simp) start) ?_
  refine bind (read fun _ => rfl) fun comma => ite (give (by simp)) ?_
  exact (moreInline (fun _ => atExpressionEnd) (testOrStar hcall)).bind fun rest => tuple

/-- An expression in parentheses may be read; they widen it. -/
theorem parenthesized : Inlines K (Grammar.parenthesized call) := by
  refine advance.bind fun opening => (parenthesizedContent hcall opening).bind fun expression => ?_
  refine (took .closeParenthesis).bind fun closed => (read fun _ => rfl).bind fun stop s h => ?_
  exact closing closed (by simp) ")" _ _ (h.widened expression opening.start stop)

/-- The entries of a list display may be read. -/
theorem listEntries : Shapes K (Grammar.listEntries call) (allOf .inline) := by
  refine bind (read fun _ => rfl) fun empty => ite ret ?_
  refine currentStart.bind fun start => (testOrStar hcall _).bind fun first => ?_
  refine atComprehension.bind fun found => ite ?_ ?_
  · exact (comprehension hcall (by simp) start).bind fun id => give (by simp [allOf])
  · refine (moreInline (fun _ => atExpressionEnd) (testOrStar hcall)).bind fun rest => ?_
    exact give (by simp [allOf])

/-- A list display may be read. -/
theorem listDisplay : Inlines K (Grammar.listDisplay call) := by
  refine advance.bind fun opening => (listEntries hcall).bind fun entries => ?_
  refine (took .closeBracket).bind fun closed => bind (inline rfl rfl ?_) fun display => ?_
  · simp +contextual [Form.children]
  · exact closing closed (by simp) "]" _

/-- An entry in braces may be read. -/
theorem braceEntry (given : Option Bool) (K : Known) :
    Shapes K (Grammar.braceEntry call given) fun entry => [(entry.1, .inline)] := by
  refine currentStart.bind fun start => (consumeOperator .power).bind fun mark => ?_
  cases mark with
  | some mark =>
    refine (bitwiseOr hcall _).bind fun _ => bind (inline rfl rfl ?_) fun entry => give (by simp)
    simp [Form.children]
  | none =>
    refine (testOrStar hcall _).bind fun key => bind (read fun _ => rfl) fun colon => ?_
    refine ite (give (by simp)) ((expect _ _).bind fun _ => ?_)
    refine (hcall.inline .test rfl _).bind fun value => bind (inline rfl rfl ?_) fun entry => ?_
    · simp [Form.children]
    · exact give (by simp)

/-- The entries in braces may be read. -/
theorem braceEntries :
    Shapes K (Grammar.braceEntries call) fun entries => allOf .inline entries.1 := by
  have hend : ∀ K, Shapes K Grammar.atEntriesEnd fun _ => [] := fun K => read fun _ => rfl
  refine (hend _).bind fun empty => ite ret ?_
  refine currentStart.bind fun start => (braceEntry hcall none _).bind fun first => ?_
  refine atComprehension.bind fun found => ite ?_ ?_
  · exact (comprehension hcall (by simp) start).bind fun id => give (by simp [allOf])
  · refine (moreInline hend fun _ => map (braceEntry hcall _ _)).bind fun rest => ?_
    exact give (by simp [allOf])

/-- A dictionary or set display may be read. -/
theorem braceDisplay : Inlines K (Grammar.braceDisplay call) := by
  refine advance.bind fun opening => (braceEntries hcall).bind fun entries => ?_
  refine (expect _ _).bind fun _ => ?_
  obtain ⟨entries, isDictionary⟩ := entries
  cases isDictionary with
  | true => exact inline rfl rfl (by simp +contextual [Form.children])
  | false => exact inline rfl rfl (by simp +contextual [Form.children])

/-! ## Atoms -/

omit hcall in
/-- An error node may stand for an expression, past a token that cannot start one. -/
theorem strayToken (token : Token) : Inlines K (Grammar.strayToken token) := by
  refine (fault _).bind fun _ => (idle fun s => arena_advanceIf _ s).bind fun _ => ?_
  exact errorNode _ (by simp)

/-- An atom may be read. -/
theorem atom : Inlines K (Grammar.atom call) := by
  refine look.bind fun token => ?_
  split
  · exact advance.bind fun _ => asInline nameNode rfl
  · exact advance.bind fun _ => addInline rfl rfl nofun
  · exact stringList
  · exact ite (advance.bind fun _ => addInline rfl rfl nofun) (strayToken token)
  · exact advance.bind fun _ => addInline rfl rfl nofun
  · exact parenthesized hcall
  · exact listDisplay hcall
  · exact braceDisplay hcall
  · exact strayToken token

/-- A call, a subscript or a member may be read after an expression. -/
theorem trailer {expression : NodeId} (hexpression : (expression, .inline) ∈ K) :
    Shapes K (Grammar.trailer call expression) fun found =>
      allOf .inline (found.toList.map (·.1)) := by
  refine (read fun _ => rfl).bind fun s => (took .openParenthesis).bind fun isCall => ite ?_ ?_
  · refine (argumentList hcall).bind fun arguments => (took .closeParenthesis).bind fun closed => ?_
    refine bind (inline rfl rfl ?_) fun callNode => ?_
    · simp +contextual [Form.children, hexpression]
    · exact (closing closed (by simp) ")" _).bind fun _ => give (by simp [allOf])
  refine (took .openBracket).bind fun isIndex => ite ?_ ?_
  · refine (subscriptList hcall).bind fun items => (took .closeBracket).bind fun closed => ?_
    refine bind (inline rfl rfl ?_) fun indexNode => ?_
    · simp +contextual [Form.children, hexpression]
    · exact (closing closed (by simp) "]" _).bind fun _ => give (by simp [allOf])
  refine (took .dot).bind fun isMember => ite ((consume .identifier).bind fun token => ?_) ret
  cases token with
  | none =>
    refine (fault _).bind fun _ => (errorNode _ ?_).bind fun _ => give (by simp [allOf])
    simp [hexpression]
  | some token =>
    refine (asInline nameNode rfl).bind fun member => bind (inline rfl rfl ?_) fun _ => ?_
    · simp [Form.children, hexpression]
    · exact give (by simp [allOf])

/-- An atom with what follows it may be read. -/
theorem atomExpression : Inlines K (Grammar.atomExpression call) := by
  refine (atom hcall).bind fun first => ?_
  refine bind (foldMany (N := fun found : NodeId × Bool => [(found.1, .inline)])
    (a := (first, true)) fun K found => ?_) fun found => give (by simp)
  refine ite ((trailer hcall (by simp)).congr fun found => ?_) ret
  cases found <;> rfl

/-! ## Functions without a name -/

omit hcall in
/-- The stars in front of a parameter may be taken. -/
theorem parameterCategory : Shapes K Grammar.parameterCategory fun _ => [] :=
  (tookOperator .multiply).bind fun _ => ite ret ((tookOperator .power).bind fun _ => ite ret ret)

/-- A parameter may be read; its title is a name. -/
theorem parameter (allowHints : Bool) (K : Known) :
    Shapes K (Grammar.parameter call allowHints) fun id => [(id, .kind .parameter)] := by
  unfold Grammar.parameter
  refine currentStart.bind fun start => parameterCategory.bind fun category => ?_
  refine (consume .identifier).bind fun token => ?_
  extract_lets afterTitle unnamed
  have htest : ∀ {K}, Shapes K (some <$> call .test) fun id => allOf .inline id.toList :=
    map (hcall.inline .test rfl _)
  have hafterTitle : ∀ K title, Shapes (allOf (.kind .name) (Option.toList title) ++ K)
      (afterTitle title) fun id => [(id, .kind .parameter)] := by
    intro K title
    unfold afterTitle
    extract_lets afterHint
    have hafterHint : ∀ K hint, Shapes (allOf .inline (Option.toList hint) ++
        (allOf (.kind .name) (Option.toList title) ++ K)) (afterHint hint)
        fun id => [(id, .kind .parameter)] := by
      intro K hint
      refine (tookOperator .assign).bind fun hasDefault => ?_
      extract_lets rest
      have hrest : ∀ value, Shapes (allOf .inline (Option.toList value) ++ (allOf .inline
          (Option.toList hint) ++ (allOf (.kind .name) (Option.toList title) ++ K))) (rest value)
          fun id => [(id, .kind .parameter)] := by
        refine fun value => node (fun part hpart => ?_) nofun
        simp only [Form.fixedParts, List.mem_append, mem_allOf] at hpart ⊢
        tauto
      exact ite (htest.bind hrest) (hrest none)
    refine ite ((took .colon).bind fun hasHint => ?_) (hafterHint _ none)
    exact ite (htest.bind (hafterHint _)) (hafterHint _ none)
  have hunnamed := hafterTitle K none
  cases token with
  | some token =>
    exact bind (N := fun title => allOf (.kind .name) title.toList) (map nameNode) (hafterTitle _)
  | none =>
    refine ite ((tookOperator .divide).bind fun slash => ite ?_ hunnamed) hunnamed
    exact (fault _).bind fun _ => advance.bind fun _ => hunnamed

/-- Parameters may be read. -/
theorem parameterList (terminator : TokenKind) (allowHints : Bool) :
    Shapes K (Grammar.parameterList call terminator allowHints) (allOf (.kind .parameter)) :=
  (separated (fun _ => read fun _ => rfl) (parameter hcall allowHints)).congr fun _ =>
    List.map_eq_flatMap

/-- A function without a name may be read. -/
theorem lambda : Inlines K (Grammar.lambda call) := by
  unfold Grammar.lambda
  refine advance.bind fun token => ?_
  extract_lets start
  refine (parameterList hcall .colon false).bind fun parameters => (expect _ _).bind fun _ => ?_
  refine atExpressionEnd.bind fun stop => ?_
  extract_lets rest
  have hrest : ∀ id, Inlines ((id, .inline) :: (allOf (.kind .parameter) parameters ++ K))
      (rest id) := fun id => asInline (node (by simp [Form.fixedParts]) nofun) rfl
  exact ite (missingExpression.bind hrest) ((hcall.inline .test rfl _).bind hrest)

end Rules

end Shapes

end TypeProbe
