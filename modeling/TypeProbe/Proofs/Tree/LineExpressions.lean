import TypeProbe.Proofs.Tree.Course
import TypeProbe.Tree.Grammar.Expression

/-!
# Expressions take steps within a line

Expressions hold no block: each of their rules keeps to every `Course`.
-/

open TypeProbe.Parser

namespace TypeProbe

/-- The rules that read no block keep to a relation. -/
def RulesKeep (R : Course) (call : Rules) : Prop :=
  ∀ rule : Rule, rule.readsBlock = false → Keeps R (call rule)

namespace Keeps

variable {R : Course}

/-- Whether an expression goes on may be seen. -/
theorem atExpressionEnd : Keeps R Grammar.atExpressionEnd := read fun _ => rfl

/-- Whether a clause of a comprehension starts may be seen. -/
theorem atComprehension : Keeps R Grammar.atComprehension := read fun _ => rfl

/-- An error node may stand for an expression. -/
theorem missingExpression : Keeps R Grammar.missingExpression := mend (.errorNode _ _)

/-- Two operands may become one node. -/
theorem binary (left : NodeId) (op : Operator) (token : Token) (right : NodeId) :
    Keeps R (Grammar.binary left op token right) :=
  (read fun _ => rfl).bind fun _ => node rfl rfl

/-- Operands may be joined by a keyword. -/
theorem keywordChain (keyword : Keyword) (op : Operator) {operand : Parser NodeId}
    (hoperand : Keeps R operand) : Keeps R (Grammar.keywordChain keyword op operand) := by
  refine hoperand.bind fun first => foldMany fun left =>
    (consumeKeyword keyword).bind fun token => ?_
  cases token with
  | none => exact ret
  | some token => exact hoperand.bind fun right => (binary left op token right).bind fun _ => ret

/-- Operands may be joined by operators of several strengths. -/
theorem binaryLevels {operand : Parser NodeId} (hoperand : Keeps R operand) (levels : Nat) :
    Keeps R (Grammar.binaryLevels operand levels) := by
  induction levels with
  | zero => exact hoperand
  | succ levels ih =>
    refine ih.bind fun first => foldMany fun left => look.bind fun token => ?_
    cases token.operator? with
    | none => exact ret
    | some op =>
      refine ite ret (advance.bind fun token => ih.bind fun right => ?_)
      exact (binary left op token right).bind fun _ => ret

/-- A construct may be closed, or become part of an error node. -/
theorem closing (closed : Bool) (id : NodeId) (spelling : String) (category : ErrorCategory) :
    Keeps R (Grammar.closing closed id spelling category) :=
  ite ret (mend ((Mends.of_keeps skipToEndOfLine).bind fun _ => .errorNode _ _))

section Rules

variable {call : Rules} (hcall : RulesKeep R call)
include hcall

/-- A power may be read. -/
theorem power : Keeps R (Grammar.power call) := by
  unfold Grammar.power
  refine (consumeKeyword .await).bind fun token => ?_
  extract_lets rest
  have hrest : ∀ id, Keeps R (rest id) := by
    refine fun left => (consumeOperator .power).bind fun token => ?_
    cases token with
    | none => exact ret
    | some token =>
      exact (nested (hcall .factor rfl)).bind fun right => binary left .power token right
  have hatom : Keeps R (Parser.nested (call .atomExpression)) := nested (hcall .atomExpression rfl)
  cases token with
  | none => exact hatom.bind hrest
  | some token => exact hatom.bind fun id => (node rfl rfl).bind hrest

/-- An expression with a sign may be read. -/
theorem factor : Keeps R (Grammar.factor call) := by
  refine look.bind fun token => ?_
  cases token.operator? with
  | none => exact power hcall
  | some op =>
    refine ite (power hcall) (advance.bind fun token => ?_)
    exact (nested (hcall .factor rfl)).bind fun id => node rfl rfl

/-- Binary operations may be read. -/
theorem bitwiseOr : Keeps R (Grammar.bitwiseOr call) := binaryLevels (factor hcall) 6

omit hcall in
/-- A comparing operator may be seen, and its first word taken if it has two. -/
theorem comparisonOperator : Keeps R Grammar.comparisonOperator := by
  refine look.bind fun token => (read fun _ => rfl).bind fun second => ?_
  dsimp only
  split
  · exact ret
  · exact ret
  · exact ite (advance.bind fun _ => ret) ret
  · exact ite (advance.bind fun _ => ret) ret
  · exact ret

/-- Comparisons may be read. -/
theorem comparison : Keeps R (Grammar.comparison call) := by
  refine (bitwiseOr hcall).bind fun first => foldMany fun left => ?_
  refine comparisonOperator.bind fun found => ?_
  cases found with
  | none => exact ret
  | some found =>
    refine advance.bind fun _ => (bitwiseOr hcall).bind fun right => ?_
    exact (binary left found.1 found.2 right).bind fun _ => ret

/-- A negated expression may be read. -/
theorem notTest : Keeps R (Grammar.notTest call) := by
  refine (consumeKeyword .not).bind fun token => ?_
  cases token with
  | none => exact comparison hcall
  | some token => exact (nested (hcall .notTest rfl)).bind fun id => node rfl rfl

/-- Expressions joined by `or` and `and` may be read. -/
theorem orTest : Keeps R (Grammar.orTest call) :=
  keywordChain .or .or (keywordChain .and .and (notTest hcall))

/-- An expression of any form may be read. -/
theorem test : Keeps R (Grammar.test call) := by
  unfold Grammar.test
  refine lookAt fun s => ?_
  split
  · exact nested (hcall .lambda rfl) s
  show R.Leads s ((if _ then _ else _ : Parser NodeId).run s).2
  split
  · rename_i hnamed
    rw [Bool.and_eq_true] at hnamed
    refine title (fun id => advance.bind fun _ => ?_) (eq_of_beq hnamed.1)
    exact (nested (hcall .test rfl)).bind fun right => node rfl rfl
  refine (?_ : Keeps R _) s
  refine (orTest hcall).bind fun first => (tookKeyword .if).bind fun conditional => ite ret ?_
  refine (orTest hcall).bind fun condition => (tookKeyword .else).bind fun found => ?_
  extract_lets rest
  have hrest : ∀ id, Keeps R (rest id) := fun id => node rfl rfl
  refine ite ((nested (hcall .test rfl)).bind hrest) (mend ?_)
  exact (Mends.errorNode .missingElse _).bind fun id => .of_keeps (hrest id)

/-- An expression unpacked by a star may be read. -/
theorem starOr {other : Parser NodeId} (hother : Keeps R other) :
    Keeps R (Grammar.starOr call other) := by
  refine (consumeOperator .multiply).bind fun star => ?_
  cases star with
  | none => exact hother
  | some star => exact (bitwiseOr hcall).bind fun id => node rfl rfl

/-- An expression, possibly unpacked, may be read. -/
theorem testOrStar : Keeps R (Grammar.testOrStar call) := starOr hcall (hcall .test rfl)

/-- Expressions with commas between them may be read as one node. -/
theorem testList : Keeps R (Grammar.testList call) := by
  refine currentStart.bind fun start => atExpressionEnd.bind fun stop => ite missingExpression ?_
  refine (testOrStar hcall).bind fun first => (read fun _ => rfl).bind fun comma => ite ret ?_
  exact (more atExpressionEnd (testOrStar hcall)).bind fun rest => node rfl rfl

/-- Expressions with commas between them may be read. -/
theorem testItems : Keeps R (Grammar.testItems call) :=
  atExpressionEnd.bind fun _ => ite (missingExpression.bind fun _ => ret)
    (separated atExpressionEnd (testOrStar hcall))

/-- Targets with commas between them may be read as one node. -/
theorem targetList : Keeps R (Grammar.targetList call) := by
  have htarget := starOr hcall (bitwiseOr hcall)
  refine currentStart.bind fun start => htarget.bind fun first => ?_
  refine (read fun _ => rfl).bind fun comma => ite ret ?_
  exact (more (read fun _ => rfl) htarget).bind fun rest => node rfl rfl

/-- A yielding expression may be read. -/
theorem yieldExpression : Keeps R (Grammar.yieldExpression call) := by
  unfold Grammar.yieldExpression
  refine advance.bind fun token => ?_
  extract_lets start rest
  have hrest : ∀ id, Keeps R (rest id) := fun id => node rfl rfl
  refine (tookKeyword .from).bind fun found => ite ?_ (atExpressionEnd.bind fun stop => ?_)
  · exact (hcall .test rfl).bind fun id => node rfl rfl
  · exact ite (hrest none) (bind (map (testList hcall)) hrest)

/-- A clause of a comprehension may be read. -/
theorem comprehensionClause : Keeps R (Grammar.comprehensionClause call) := by
  unfold Grammar.comprehensionClause
  refine atComprehension.bind fun found => ite ?_ ?_
  · refine currentStart.bind fun start => (tookKeyword .async).bind fun isAsync => ?_
    refine advance.bind fun _ => (targetList hcall).bind fun target => ?_
    refine (tookKeyword .in).bind fun found => ?_
    extract_lets rest
    have hrest : ∀ id, Keeps R (rest id) := fun id => (node rfl rfl).bind fun _ => ret
    refine ite ((orTest hcall).bind hrest) (mend ?_)
    exact (Mends.errorNode .missingIn _).bind fun id => .of_keeps (hrest id)
  · refine (consumeKeyword .if).bind fun token => ?_
    cases token with
    | none => exact ret
    | some token => exact (orTest hcall).bind fun condition => (node rfl rfl).bind fun _ => ret

/-- The clauses of a comprehension may be read after its element. -/
theorem comprehension (expression : NodeId) (start : Nat) :
    Keeps R (Grammar.comprehension call expression start) :=
  (many (comprehensionClause hcall)).bind fun _ => node rfl rfl

/-! ## Arguments and subscripts -/

omit hcall in
/-- The stars in front of an argument may be taken. -/
theorem argumentCategory : Keeps R Grammar.argumentCategory :=
  (tookOperator .multiply).bind fun _ => ite ret ((tookOperator .power).bind fun _ => ite ret ret)

/-- An argument may be read. -/
theorem argument : Keeps R (Grammar.argument call) := by
  unfold Grammar.argument
  refine currentStart.bind fun start => argumentCategory.bind fun category => ?_
  refine lookFurther fun s => ?_
  extract_lets isNamed value
  have hvalue : ∀ title, Keeps R (value title) := by
    refine fun title => (hcall .test rfl).bind fun first => atComprehension.bind fun found => ?_
    extract_lets rest
    have hrest : ∀ id, Keeps R (rest id) := fun id => node rfl rfl
    exact ite ((comprehension hcall first start).bind hrest) (hrest first)
  split
  · rename_i hnamed
    simp only [isNamed, Bool.and_eq_true] at hnamed
    exact title (fun id => advance.bind fun _ => hvalue (some id)) (eq_of_beq hnamed.1.2)
  · exact hvalue none s

/-- Arguments may be read. -/
theorem argumentList : Keeps R (Grammar.argumentList call) :=
  separated (read fun _ => rfl) (argument hcall)

/-- A part of a slice may be read. -/
theorem slicePart : Keeps R (Grammar.slicePart call) :=
  (took .colon).bind fun _ => ite ret (look.bind fun _ => ite ret
    ((hcall .test rfl).bind fun _ => ret))

/-- A slice or an expression may be read. -/
theorem sliceOrTest : Keeps R (Grammar.sliceOrTest call) := by
  unfold Grammar.sliceOrTest
  refine currentStart.bind fun start => (read fun _ => rfl).bind fun colon => ?_
  extract_lets rest
  have hrest : ∀ first, Keeps R (rest first) := by
    refine fun first => (read fun _ => rfl).bind fun goesOn => ?_
    have hparts : ∀ first, Keeps R (do
        let stop ← Grammar.slicePart call
        let step ← Grammar.slicePart call
        Parser.node start (.slice first stop step)) := fun first =>
      (slicePart hcall).bind fun stop => (slicePart hcall).bind fun step => node rfl rfl
    cases first with
    | none => exact hparts none
    | some first =>
      cases goesOn with
      | false => exact ret
      | true => exact hparts (some first)
  exact ite (hrest none) (bind (map (hcall .test rfl)) hrest)

/-- A subscript may be read. -/
theorem subscript : Keeps R (Grammar.subscript call) := by
  refine currentStart.bind fun start => (tookOperator .multiply).bind fun star => ite ?_ ?_
  · exact (bitwiseOr hcall).bind fun value => node rfl rfl
  · exact (sliceOrTest hcall).bind fun value => node rfl rfl

/-- Subscripts may be read; an error node stands for missing ones. -/
theorem subscriptList : Keeps R (Grammar.subscriptList call) := by
  refine (read fun _ => rfl).bind fun stop => ite ?_ ?_
  · refine mend ((Mends.errorNode _ _).bind fun error => .of_keeps ?_)
    exact (read fun _ => rfl).bind fun s => (addNode rfl rfl).bind fun _ => ret
  · exact separated (read fun _ => rfl) (subscript hcall)

omit hcall in
/-- Strings side by side may be read. -/
theorem stringList : Keeps R Grammar.stringList := by
  refine currentStart.bind fun start => ?_
  refine (many (look.bind fun token => ?_)).bind fun strings => node rfl rfl
  split
  · refine advance.bind fun token => ?_
    split
    · exact (tokenNode rfl rfl).bind fun _ => ret
    · exact (tokenNode rfl rfl).bind fun _ => ret
  · exact ret

/-! ## Displays -/

/-- What stands between parentheses may be read after the first one. -/
theorem parenthesizedContent (opening : Token) :
    Keeps R (Grammar.parenthesizedContent call opening) := by
  refine (read fun _ => rfl).bind fun empty => ite (tokenNode rfl rfl) ?_
  refine (read fun _ => rfl).bind fun yields => ite (yieldExpression hcall) ?_
  refine currentStart.bind fun start => (testOrStar hcall).bind fun first => ?_
  refine atComprehension.bind fun found => ite (comprehension hcall first start) ?_
  refine (read fun _ => rfl).bind fun comma => ite ret ?_
  exact (more atExpressionEnd (testOrStar hcall)).bind fun rest => node rfl rfl

/-- An expression in parentheses may be read; they widen it. -/
theorem parenthesized : Keeps R (Grammar.parenthesized call) := by
  refine advance.bind fun opening => (parenthesizedContent hcall opening).bind fun expression => ?_
  refine (took .closeParenthesis).bind fun closed => (read fun _ => rfl).bind fun stop => ?_
  exact bind (fun s => R.widened s) fun _ => closing closed expression ")" _

/-- The entries of a list display may be read. -/
theorem listEntries : Keeps R (Grammar.listEntries call) := by
  refine (read fun _ => rfl).bind fun empty => ite ret ?_
  refine currentStart.bind fun start => (testOrStar hcall).bind fun first => ?_
  refine atComprehension.bind fun found => ite ?_ ?_
  · exact (comprehension hcall first start).bind fun id => ret
  · exact (more atExpressionEnd (testOrStar hcall)).bind fun rest => ret

/-- A list display may be read. -/
theorem listDisplay : Keeps R (Grammar.listDisplay call) := by
  refine advance.bind fun opening => (listEntries hcall).bind fun entries => ?_
  refine (took .closeBracket).bind fun closed => (node rfl rfl).bind fun display => ?_
  exact closing closed display "]" _

/-- An entry in braces may be read. -/
theorem braceEntry (given : Option Bool) : Keeps R (Grammar.braceEntry call given) := by
  refine currentStart.bind fun start => (consumeOperator .power).bind fun mark => ?_
  cases mark with
  | some mark => exact (bitwiseOr hcall).bind fun _ => (node rfl rfl).bind fun entry => ret
  | none =>
    refine (testOrStar hcall).bind fun key => (read fun _ => rfl).bind fun colon => ?_
    refine ite ret ((expect _ _).bind fun _ => (hcall .test rfl).bind fun value => ?_)
    exact (node rfl rfl).bind fun entry => ret

/-- The entries in braces may be read. -/
theorem braceEntries : Keeps R (Grammar.braceEntries call) := by
  have hend : Keeps R Grammar.atEntriesEnd := read fun _ => rfl
  refine hend.bind fun empty => ite ret ?_
  refine currentStart.bind fun start => (braceEntry hcall none).bind fun first => ?_
  refine atComprehension.bind fun found => ite ?_ ?_
  · exact (comprehension hcall first.1 start).bind fun id => ret
  · exact (more hend (map (braceEntry hcall _))).bind fun rest => ret

/-- A dictionary or set display may be read. -/
theorem braceDisplay : Keeps R (Grammar.braceDisplay call) := by
  refine advance.bind fun opening => (braceEntries hcall).bind fun entries => ?_
  refine (expect _ _).bind fun _ => ?_
  obtain ⟨entries, isDictionary⟩ := entries
  cases isDictionary with
  | true => exact node rfl rfl
  | false => exact node rfl rfl

/-! ## Atoms -/

omit hcall in
/-- An error node may stand for an expression, past a token that cannot start one. -/
theorem strayToken (token : Token) : Keeps R (Grammar.strayToken token) :=
  mend ((Mends.of_keeps (advanceIf _)).bind fun _ => .errorNode _ _)

/-- An atom may be read. -/
theorem atom : Keeps R (Grammar.atom call) := by
  refine lookAt fun s => ?_
  split
  · rename_i hname
    exact R.title s (congrArg Lexeme.kind hname)
  · rename_i hnumber
    exact R.number s _ hnumber
  · exact stringList s
  · exact ite (advance.bind fun _ => tokenNode rfl rfl) (strayToken s.current) s
  · exact (advance.bind fun _ => tokenNode rfl rfl) s
  · exact parenthesized hcall s
  · exact listDisplay hcall s
  · exact braceDisplay hcall s
  · exact strayToken s.current s

/-- A call, a subscript or a member may be read after an expression. -/
theorem trailer (expression : NodeId) : Keeps R (Grammar.trailer call expression) := by
  refine (read fun _ => rfl).bind fun s => (took .openParenthesis).bind fun isCall => ite ?_ ?_
  · refine (argumentList hcall).bind fun arguments => (took .closeParenthesis).bind fun closed => ?_
    refine (node rfl rfl).bind fun callNode => ?_
    exact (closing closed callNode ")" _).bind fun _ => ret
  refine (took .openBracket).bind fun isIndex => ite ?_ ?_
  · refine (subscriptList hcall).bind fun items => (took .closeBracket).bind fun closed => ?_
    refine (node rfl rfl).bind fun indexNode => ?_
    exact (closing closed indexNode "]" _).bind fun _ => ret
  refine (took .dot).bind fun isMember => ite (consumeTitle (fun _ => rfl) (fun id => ?_) ?_) ret
  · exact (node rfl rfl).bind fun _ => ret
  · exact mend ((Mends.errorNode _ _).bind fun _ => .of_keeps ret)

/-- An atom with what follows it may be read. -/
theorem atomExpression : Keeps R (Grammar.atomExpression call) := by
  refine (atom hcall).bind fun first => bind (foldMany fun found => ?_) fun found => ret
  exact ite (trailer hcall found.1) ret

/-! ## Functions without a name -/

omit hcall in
/-- The stars in front of a parameter may be taken. -/
theorem parameterCategory : Keeps R Grammar.parameterCategory :=
  (tookOperator .multiply).bind fun _ => ite ret ((tookOperator .power).bind fun _ => ite ret ret)

/-- A parameter may be read. -/
theorem parameter (allowHints : Bool) : Keeps R (Grammar.parameter call allowHints) := by
  unfold Grammar.parameter
  refine currentStart.bind fun start => parameterCategory.bind fun category => ?_
  extract_lets afterTitle unnamed
  have htest : Keeps R (some <$> call .test) := map (hcall .test rfl)
  have hafterTitle : ∀ title, Keeps R (afterTitle title) := by
    intro title
    unfold afterTitle
    extract_lets afterHint
    have hafterHint : ∀ hint, Keeps R (afterHint hint) := by
      refine fun hint => (tookOperator .assign).bind fun hasDefault => ?_
      extract_lets rest
      have hrest : ∀ value, Keeps R (rest value) := fun value => node rfl rfl
      exact ite (htest.bind hrest) (hrest none)
    refine ite ((took .colon).bind fun hasHint => ?_) (hafterHint none)
    exact ite (htest.bind hafterHint) (hafterHint none)
  have hunnamed := hafterTitle none
  refine consumeTitle (fun _ => rfl) (fun id => hafterTitle (some id)) ?_
  refine ite ((tookOperator .divide).bind fun slash => ite ?_ hunnamed) hunnamed
  exact (fault _).bind fun _ => advance.bind fun _ => hunnamed

/-- Parameters may be read. -/
theorem parameterList (terminator : TokenKind) (allowHints : Bool) :
    Keeps R (Grammar.parameterList call terminator allowHints) :=
  separated (read fun _ => rfl) (parameter hcall allowHints)

/-- A function without a name may be read. -/
theorem lambda : Keeps R (Grammar.lambda call) := by
  unfold Grammar.lambda
  refine advance.bind fun token => ?_
  extract_lets start
  refine (parameterList hcall .colon false).bind fun parameters => (expect _ _).bind fun _ => ?_
  refine atExpressionEnd.bind fun stop => ?_
  extract_lets rest
  have hrest : ∀ id, Keeps R (rest id) := fun id => node rfl rfl
  exact ite (missingExpression.bind hrest) ((hcall .test rfl).bind hrest)

end Rules

end Keeps

end TypeProbe
