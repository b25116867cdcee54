import TypeProbe.Proofs.Tree.Steps
import TypeProbe.Tree.Grammar.Expression

/-!
# What the rules for expressions build

Each rule for expressions puts one node on the stack, or the nodes of a list, provided that the
rules it leads to build what they should (`RulesBuild`).
-/

open TypeProbe.Parser

namespace TypeProbe

/-- What a rule finds on the stack above the rest of it. -/
def Rule.before (L : List Item) : Rule → List Item
  | .assignment start left => .node left :: .mark start :: L
  | _ => L

/-- The rule for statements comes to a stack whose last node is no decorator. -/
def Rule.Ready (L : List Item) : Rule → Prop
  | .statement => Settled L
  | _ => True

/-- Every rule builds one node in place of what it finds on the stack. -/
def RulesBuild (length : Nat) (call : Rules) : Prop :=
  ∀ rule L, rule.Ready L → Builds length (rule.before L) (call rule) fun id => .node id :: L

namespace Builds

variable {length : Nat} {L : List Item} {S : List Item}

/-- Whether an expression goes on may be seen. -/
theorem atExpressionEnd : Builds length L Grammar.atExpressionEnd fun _ => L := read fun _ => rfl

/-- Whether a clause of a comprehension starts may be seen. -/
theorem atComprehension : Builds length L Grammar.atComprehension fun _ => L := read fun _ => rfl

/-- An error node may stand for an expression. -/
theorem missingExpression : Builds length L Grammar.missingExpression fun id => .node id :: L :=
  (fault _).bind fun _ => errorNode _

/-- Two operands may become one node. -/
theorem binary (left : NodeId) (op : Operator) (token : Token) (right : NodeId) :
    Builds length (.node right :: .node left :: L) (Grammar.binary left op token right)
      fun id => .node id :: L := by
  intro s h
  obtain ⟨r, hr, -⟩ := h.exists_range [.node right] rfl
  have hmark := h.markBelow [.node right] rfl hr
  have hstart : ((s.arena.range? left).map (·.start)).getD token.start = r.start := by
    rw [hr]
    rfl
  have hnode : Builds length (.node right :: .node left :: .mark r.start :: L)
    (Parser.node r.start (.binaryOperation op token left right false)) fun id => .node id :: L :=
    node rfl nofun
  rw [← hstart] at hnode hmark
  exact hnode s hmark

/-- Operands may be joined by a keyword. -/
theorem keywordChain (keyword : Keyword) (op : Operator) {operand : Parser NodeId}
    (hoperand : ∀ L, Builds length L operand fun id => .node id :: L) :
    Builds length L (Grammar.keywordChain keyword op operand) fun id => .node id :: L := by
  refine (hoperand L).bind fun first => foldMany (I := fun id => .node id :: L) fun left => ?_
  refine (consumeKeyword keyword).bind fun token => ?_
  cases token with
  | none => exact ret rfl
  | some token =>
    refine forget (forget ((hoperand _).bind fun right => ?_))
    exact (binary left op token right).bind fun _ => ret rfl

/-- Operands may be joined by operators of several strengths. -/
theorem binaryLevels {operand : Parser NodeId}
    (hoperand : ∀ L, Builds length L operand fun id => .node id :: L) (levels : Nat)
    (L : List Item) :
    Builds length L (Grammar.binaryLevels operand levels) fun id => .node id :: L := by
  induction levels generalizing L with
  | zero => exact hoperand L
  | succ levels ih =>
    refine (ih L).bind fun first => foldMany (I := fun id => .node id :: L) fun left => ?_
    refine look.bind fun token => ?_
    cases token.operator? with
    | none => exact ret rfl
    | some op =>
      refine ite (ret rfl) (advancePast.bind fun token => (ih _).bind fun right => ?_)
      exact (binary left op token right).bind fun _ => ret rfl

/-- A construct may be closed, or become part of an error node. -/
theorem closing (closed : Bool) (id : NodeId) (spelling : String) {category : ErrorCategory}
    (hcategory : category ≠ .missingFunctionParameterList) :
    Builds length (.node id :: L) (Grammar.closing closed id spelling category)
      fun id => .node id :: L := by
  refine ite (ret rfl) ((fault _).bind fun _ => ?_)
  exact skipToEndOfLine.bind fun _ => errorAround hcategory

section Rules

variable {call : Rules} (hcall : RulesBuild length call)
include hcall

/-- An expression may be read. -/
theorem ofTest : Builds length L (call .test) fun id => .node id :: L := hcall .test L trivial

/-- An atom with what follows it may be read one level further in. -/
theorem nestedAtom :
    Builds length L (Parser.nested (call .atomExpression)) fun id => .node id :: L :=
  nested (hcall .atomExpression L trivial)

/-- A power may be read. -/
theorem power : Builds length L (Grammar.power call) fun id => .node id :: L := by
  unfold Grammar.power
  refine (consumeKeyword .await).bind fun token => ?_
  extract_lets rest
  have hrest : ∀ id, Builds length (.node id :: L) (rest id) fun id => .node id :: L := by
    intro left
    refine (consumeOperator .power).bind fun token => ?_
    cases token with
    | none => exact ret rfl
    | some token =>
      refine forget (forget ((nested (hcall .factor _ trivial)).bind fun right => ?_))
      exact binary left .power token right
  cases token with
  | none => exact (nestedAtom hcall).bind hrest
  | some token =>
    refine forget ((nestedAtom hcall).bind fun id => ?_)
    exact bind (node rfl nofun) hrest

/-- An expression with a sign may be read. -/
theorem factor : Builds length L (Grammar.factor call) fun id => .node id :: L := by
  refine look.bind fun token => ?_
  cases token.operator? with
  | none => exact power hcall
  | some op =>
    refine ite (power hcall) (advanceFrom.bind fun token => ?_)
    exact (nested (hcall .factor _ trivial)).bind fun id => node rfl nofun

/-- Binary operations may be read. -/
theorem bitwiseOr : Builds length L (Grammar.bitwiseOr call) fun id => .node id :: L :=
  binaryLevels (fun _ => factor hcall) 6 L

omit hcall in
/-- A comparing operator may be seen, and its first word taken if it has two. -/
theorem comparisonOperator : Builds length L Grammar.comparisonOperator fun _ => L := by
  refine look.bind fun token => (read fun _ => rfl).bind fun second => ?_
  dsimp only
  split
  · exact ret rfl
  · exact ret rfl
  · exact ite (advancePast.bind fun _ => ret rfl) (ret rfl)
  · exact ite (advancePast.bind fun _ => ret rfl) (ret rfl)
  · exact ret rfl

/-- Comparisons may be read. -/
theorem comparison : Builds length L (Grammar.comparison call) fun id => .node id :: L := by
  refine (bitwiseOr hcall).bind fun first => foldMany (I := fun id => .node id :: L) fun left => ?_
  refine comparisonOperator.bind fun found => ?_
  cases found with
  | none => exact ret rfl
  | some found =>
    refine advancePast.bind fun _ => (bitwiseOr hcall).bind fun right => ?_
    exact (binary left found.1 found.2 right).bind fun _ => ret rfl

/-- A negated expression may be read. -/
theorem notTest : Builds length L (Grammar.notTest call) fun id => .node id :: L := by
  refine (consumeKeyword .not).bind fun token => ?_
  cases token with
  | none => exact comparison hcall
  | some token =>
    exact forget ((nested (hcall .notTest _ trivial)).bind fun id => node rfl nofun)

/-- Expressions joined by `or` and `and` may be read. -/
theorem orTest : Builds length L (Grammar.orTest call) fun id => .node id :: L :=
  keywordChain .or .or fun _ => keywordChain .and .and fun _ => notTest hcall

/-- An expression of any form may be read. -/
theorem test : Builds length L (Grammar.test call) fun id => .node id :: L := by
  unfold Grammar.test
  refine peek.bind fun token => ite (forget (nested (hcall .lambda L trivial))) ?_
  refine (read fun _ => rfl).bind fun second => ite ?_ ?_
  · refine advance.bind fun title => nameNode.bind fun title => advancePast.bind fun _ => ?_
    exact (nested (ofTest hcall)).bind fun right => node rfl nofun
  refine (orTest hcall).bind fun first => (tookKeyword .if).bind fun conditional => ite ?_ ?_
  · exact under [.node first] (ret rfl)
  refine (orTest hcall).bind fun condition => (tookKeyword .else).bind fun found => ?_
  extract_lets rest
  have hrest : ∀ id, Builds length (.node id :: .node condition :: .node first ::
      .mark token.start :: L) (rest id) fun id => .node id :: L := fun id => node rfl nofun
  refine ite ((nested (ofTest hcall)).bind hrest) ((fault _).bind fun _ => ?_)
  exact (errorNode .missingElse).bind hrest

/-- An expression unpacked by a star may be read. -/
theorem starOr {other : Parser NodeId}
    (hother : ∀ L, Builds length L other fun id => .node id :: L) :
    Builds length L (Grammar.starOr call other) fun id => .node id :: L := by
  refine (consumeOperator .multiply).bind fun star => ?_
  cases star with
  | none => exact hother L
  | some star => exact forget ((bitwiseOr hcall).bind fun id => node rfl nofun)

/-- An expression, possibly unpacked, may be read. -/
theorem testOrStar : Builds length L (Grammar.testOrStar call) fun id => .node id :: L :=
  starOr hcall fun _ => ofTest hcall

/-- Expressions with commas between them may be read as one node. -/
theorem testList : Builds length L (Grammar.testList call) fun id => .node id :: L := by
  refine currentStart.bind fun start => atExpressionEnd.bind fun stop => ite ?_ ?_
  · exact forget missingExpression
  refine (testOrStar hcall).bind fun first => (read fun _ => rfl).bind fun comma => ite ?_ ?_
  · exact under [.node first] (ret rfl)
  refine (more (fun _ => atExpressionEnd) fun _ => testOrStar hcall).bind fun rest => ?_
  exact node rfl nofun

/-- Expressions with commas between them may be read. -/
theorem testItems : Builds length L (Grammar.testItems call) fun ids => pushed ids L := by
  refine atExpressionEnd.bind fun stop => ite (missingExpression.bind fun id => ret rfl) ?_
  exact separated (fun _ => atExpressionEnd) fun _ => testOrStar hcall

/-- Targets with commas between them may be read as one node. -/
theorem targetList : Builds length L (Grammar.targetList call) fun id => .node id :: L := by
  have htarget : ∀ L, Builds length L (Grammar.starOr call (Grammar.bitwiseOr call))
      fun id => .node id :: L := fun _ => starOr hcall fun _ => bitwiseOr hcall
  refine currentStart.bind fun start => (htarget _).bind fun first => ?_
  refine (read fun _ => rfl).bind fun comma => ite (under [.node first] (ret rfl)) ?_
  exact (more (fun _ => read fun _ => rfl) htarget).bind fun rest => node rfl nofun

/-- A yielding expression may be read. -/
theorem yieldExpression :
    Builds length L (Grammar.yieldExpression call) fun id => .node id :: L := by
  unfold Grammar.yieldExpression
  refine advanceFrom.bind fun token => ?_
  extract_lets start rest
  refine (tookKeyword .from).bind fun found => ite ?_ (atExpressionEnd.bind fun stop => ?_)
  · exact (ofTest hcall).bind fun id => node rfl nofun
  have hrest : ∀ id,
      Builds length (built id (.mark start :: L)) (rest id) fun id => .node id :: L :=
    fun id => node (built_eq id _).symm nofun
  exact ite (hrest none) (bind (map (testList hcall)) hrest)

/-- A clause of a comprehension may be read. -/
theorem comprehensionClause : Builds length L (Grammar.comprehensionClause call)
    (after (fun id L => .node id :: L) L) := by
  unfold Grammar.comprehensionClause
  refine atComprehension.bind fun found => ite ?_ ?_
  · refine currentStart.bind fun start => (tookKeyword .async).bind fun isAsync => ?_
    refine advancePast.bind fun _ => (targetList hcall).bind fun target => ?_
    refine (tookKeyword .in).bind fun found => ?_
    extract_lets rest
    have hrest : ∀ id, Builds length (.node id :: .node target :: .mark start :: L) (rest id)
        (after (fun id L => .node id :: L) L) := fun id => bind (node rfl nofun) fun _ => ret rfl
    refine ite ((orTest hcall).bind hrest) ((fault _).bind fun _ => ?_)
    exact (errorNode .missingIn).bind hrest
  · refine (consumeKeyword .if).bind fun token => ?_
    cases token with
    | none => exact ret rfl
    | some token =>
      refine forget ((orTest hcall).bind fun condition => ?_)
      exact bind (node rfl nofun) fun _ => ret rfl

/-- The clauses of a comprehension may be read after its element. -/
theorem comprehension (expression : NodeId) (start : Nat) :
    Builds length (.node expression :: .mark start :: L)
      (Grammar.comprehension call expression start) fun id => .node id :: L := by
  exact (manyNodes fun _ => comprehensionClause hcall).bind fun clauses => node rfl nofun

/-! ## Arguments and subscripts -/

omit hcall in
/-- The stars in front of an argument may be taken. -/
theorem argumentCategory : Builds length L Grammar.argumentCategory fun _ => L := by
  refine (tookOperator .multiply).bind fun list => ite (ret rfl) ?_
  exact (tookOperator .power).bind fun dictionary => ite (ret rfl) (ret rfl)

/-- An argument may be read. -/
theorem argument : Builds length L (Grammar.argument call) fun id => .node id :: L := by
  unfold Grammar.argument
  refine currentStart.bind fun start => argumentCategory.bind fun category => ?_
  refine look.bind fun token => (read fun _ => rfl).bind fun second => ?_
  extract_lets isNamed value
  have hvalue : ∀ title, Builds length (built title (.mark start :: L)) (value title)
      fun id => .node id :: L := by
    intro title
    refine (ofTest hcall).bind fun first => atComprehension.bind fun found => ?_
    extract_lets rest
    have hrest : ∀ id, Builds length (.node id :: built title (.mark start :: L)) (rest id)
        fun id => .node id :: L := by
      refine fun id => node ?_ nofun
      simp [Form.children, built_eq]
    cases title with
    | some title => exact hrest first
    | none =>
      exact ite (twice [.node first] (bind (comprehension hcall first start) hrest)) (hrest first)
  refine ite ?_ (hvalue none)
  refine advance.bind fun token => nameNode.bind fun title => advancePast.bind fun _ => ?_
  exact hvalue (some title)

/-- Arguments may be read. -/
theorem argumentList : Builds length L (Grammar.argumentList call) fun ids => pushed ids L :=
  separated (fun _ => read fun _ => rfl) fun _ => argument hcall

/-- A part of a slice may be read. -/
theorem slicePart : Builds length L (Grammar.slicePart call) fun id => built id L := by
  refine (took .colon).bind fun found => ite (ret rfl) (look.bind fun token => ite (ret rfl) ?_)
  exact (ofTest hcall).bind fun _ => ret rfl

/-- A slice or an expression may be read. -/
theorem sliceOrTest : Builds length L (Grammar.sliceOrTest call) fun id => .node id :: L := by
  unfold Grammar.sliceOrTest
  refine currentStart.bind fun start => (read fun _ => rfl).bind fun colon => ?_
  extract_lets rest
  have hrest : ∀ first, Builds length (built first (.mark start :: L)) (rest first)
      fun id => .node id :: L := by
    intro first
    refine (read fun _ => rfl).bind fun goesOn => ?_
    have hparts : Builds length (built first (.mark start :: L)) (do
        let stop ← Grammar.slicePart call
        let step ← Grammar.slicePart call
        Parser.node start (.slice first stop step)) fun id => .node id :: L := by
      refine (slicePart hcall).bind fun stop => (slicePart hcall).bind fun step => node ?_ nofun
      simp [Form.children, built_eq]
    cases first with
    | none => exact hparts
    | some first =>
      cases goesOn with
      | false => exact under [.node first] (ret rfl)
      | true => exact hparts
  exact ite (hrest none) (bind (map (ofTest hcall)) hrest)

/-- A subscript may be read. -/
theorem subscript : Builds length L (Grammar.subscript call) fun id => .node id :: L := by
  refine currentStart.bind fun start => (tookOperator .multiply).bind fun star => ite ?_ ?_
  · exact (bitwiseOr hcall).bind fun value => node rfl nofun
  · exact (sliceOrTest hcall).bind fun value => node rfl nofun

/-- Subscripts may be read; an error node stands for missing ones. -/
theorem subscriptList : Builds length L (Grammar.subscriptList call) fun ids => pushed ids L := by
  refine bind (read fun _ => rfl) fun stop => ite ?_ ?_
  · refine (fault _).bind fun _ => (errorNode _).bind fun error s h => ?_
    obtain ⟨r, hr, hstop⟩ := h.exists_range [] rfl
    have hrange : (s.arena.range? error).getD default = r := by
      rw [hr]
      rfl
    have hmark : Holds length (pushed (Form.argument .simple none error).children
        (.mark r.start :: L)) s := h.markBelow [] rfl hr
    have hadd := hmark.add hstop nofun
    rw [← hrange] at hadd
    exact hadd
  · exact separated (fun _ => read fun _ => rfl) fun _ => subscript hcall

omit hcall in
/-- Strings side by side may be read. -/
theorem stringList : Builds length L Grammar.stringList fun id => .node id :: L := by
  refine currentStart.bind fun start => ?_
  refine (manyNodes fun L => look.bind fun token => ?_).bind fun strings => node rfl nofun
  split
  · refine advance.bind fun token => ?_
    split
    · exact bind (tokenNode rfl nofun) fun _ => ret rfl
    · exact bind (tokenNode rfl nofun) fun _ => ret rfl
  · exact ret rfl

/-! ## Displays -/

/-- What stands between parentheses may be read after the first one. -/
theorem parenthesizedContent (opening : Token) :
    Builds length (.mark opening.stop :: .mark opening.start :: L)
      (Grammar.parenthesizedContent call opening)
      fun id => .node id :: .mark opening.start :: L := by
  refine bind (read fun _ => rfl) fun empty => ite ?_ (forget ?_)
  · exact twice [.mark opening.stop] (tokenNode rfl nofun)
  refine bind (read fun _ => rfl) fun yields => ite (yieldExpression hcall) ?_
  refine currentStart.bind fun start => (testOrStar hcall).bind fun first => ?_
  refine atComprehension.bind fun found => ite (comprehension hcall first start) ?_
  refine bind (read fun _ => rfl) fun comma => ite (under [.node first] (ret rfl)) ?_
  refine (more (fun _ => atExpressionEnd) fun _ => testOrStar hcall).bind fun rest => ?_
  exact node rfl nofun

/-- An expression in parentheses may be read; they widen it. -/
theorem parenthesized : Builds length L (Grammar.parenthesized call) fun id => .node id :: L := by
  refine advance.bind fun opening => (parenthesizedContent hcall opening).bind fun expression => ?_
  refine (took .closeParenthesis).bind fun closed s h => ?_
  have hclosing : Builds length (.node expression :: L)
      (Grammar.closing closed expression ")" .missingTupleCloseParen) fun id => .node id :: L :=
    closing closed expression ")" nofun
  exact hclosing _ (h.widened h.cursor.previous)

/-- The entries of a list display may be read. -/
theorem listEntries : Builds length L (Grammar.listEntries call) fun ids => pushed ids L := by
  refine bind (read fun _ => rfl) fun empty => ite (ret rfl) ?_
  refine currentStart.bind fun start => (testOrStar hcall).bind fun first => ?_
  refine atComprehension.bind fun found => ite ?_ (under [.node first] ?_)
  · exact (comprehension hcall first start).bind fun id => ret rfl
  · exact (more (fun _ => atExpressionEnd) fun _ => testOrStar hcall).bind fun rest => ret rfl

/-- A list display may be read. -/
theorem listDisplay : Builds length L (Grammar.listDisplay call) fun id => .node id :: L := by
  refine advanceFrom.bind fun opening => (listEntries hcall).bind fun entries => ?_
  refine (took .closeBracket).bind fun closed => bind (node rfl nofun) fun display => ?_
  exact closing closed display "]" nofun

/-- An entry in braces may be read. -/
theorem braceEntry (given : Option Bool) :
    Builds length L (Grammar.braceEntry call given) fun entry => .node entry.1 :: L := by
  refine currentStart.bind fun start => (consumeOperator .power).bind fun mark => ?_
  cases mark with
  | some mark =>
    refine forget ((bitwiseOr hcall).bind fun expression => ?_)
    exact bind (node rfl nofun) fun entry => under [.node entry] (ret rfl)
  | none =>
    refine (testOrStar hcall).bind fun key => bind (read fun _ => rfl) fun colon => ?_
    refine ite (under [.node key] (ret rfl)) ((expect _ _).bind fun _ => ?_)
    exact (ofTest hcall).bind fun value => bind (node rfl nofun) fun entry => ret rfl

/-- The entries in braces may be read. -/
theorem braceEntries : Builds length L (Grammar.braceEntries call) fun entries =>
    pushed entries.1 L := by
  have hend : ∀ L, Builds length L Grammar.atEntriesEnd fun _ => L := fun L => read fun _ => rfl
  refine (hend L).bind fun empty => ite (ret rfl) ?_
  refine currentStart.bind fun start => (braceEntry hcall none).bind fun first => ?_
  refine atComprehension.bind fun found => ite ?_ (under [.node first.1] ?_)
  · exact (comprehension hcall first.1 start).bind fun id => ret rfl
  · refine (more hend fun _ => map (braceEntry hcall _)).bind fun rest => ret rfl

/-- A dictionary or set display may be read. -/
theorem braceDisplay : Builds length L (Grammar.braceDisplay call) fun id => .node id :: L := by
  refine advanceFrom.bind fun opening => (braceEntries hcall).bind fun entries => ?_
  refine (expect _ _).bind fun _ => ?_
  obtain ⟨entries, isDictionary⟩ := entries
  cases isDictionary with
  | true => exact node rfl nofun
  | false => exact node rfl nofun

/-! ## Atoms -/

omit hcall in
/-- An error node may stand for an expression, past a token that cannot start one. -/
theorem strayToken (token : Token) :
    Builds length L (Grammar.strayToken token) fun id => .node id :: L :=
  (fault _).bind fun _ => (advanceIfPast _).bind fun _ => errorNode _

/-- An atom may be read. -/
theorem atom : Builds length L (Grammar.atom call) fun id => .node id :: L := by
  refine look.bind fun token => ?_
  split
  · exact advance.bind fun _ => nameNode
  · exact advance.bind fun _ => tokenNode rfl nofun
  · exact stringList
  · exact ite (advance.bind fun _ => tokenNode rfl nofun) (strayToken token)
  · exact advance.bind fun _ => tokenNode rfl nofun
  · exact parenthesized hcall
  · exact listDisplay hcall
  · exact braceDisplay hcall
  · exact strayToken token

/-- A call, a subscript or a member may be read after an expression. -/
theorem trailer (expression : NodeId) :
    Builds length (.node expression :: L) (Grammar.trailer call expression)
      (after (fun found _ => .node found.1 :: L) (.node expression :: L)) := by
  unfold Grammar.trailer
  refine look_bind fun s h => ?_
  obtain ⟨r, hr, -⟩ := h.exists_range [] rfl
  -- The whole starts where the expression does, so that offset is noted below it.
  have hstart : s.arena.startOf expression = r.start := by
    rw [Arena.startOf, hr]
    rfl
  refine ⟨.node expression :: .mark (s.arena.startOf expression) :: L, ?_, ?_⟩
  · rw [hstart]
    exact h.markBelow [] rfl hr
  extract_lets start
  refine (took .openParenthesis).bind fun isCall => ite ?_ ?_
  · refine (argumentList hcall).bind fun arguments => (took .closeParenthesis).bind fun closed => ?_
    refine bind (node rfl nofun) fun callNode => ?_
    exact bind (closing closed callNode ")" nofun) fun _ => ret rfl
  refine (took .openBracket).bind fun isIndex => ite ?_ ?_
  · refine (subscriptList hcall).bind fun items => (took .closeBracket).bind fun closed => ?_
    refine bind (node rfl nofun) fun indexNode => ?_
    exact bind (closing closed indexNode "]" nofun) fun _ => ret rfl
  refine (took .dot).bind fun isMember => ite ?_ (under [.node expression] (ret rfl))
  refine (consume .identifier).bind fun token => ?_
  cases token with
  | none =>
    refine under [.node expression] ((fault _).bind fun _ => ?_)
    exact bind (errorAround nofun) fun _ => ret rfl
  | some token => exact nameNode.bind fun member => bind (node rfl nofun) fun _ => ret rfl

/-- An atom with what follows it may be read. -/
theorem atomExpression : Builds length L (Grammar.atomExpression call) fun id => .node id :: L := by
  refine (atom hcall).bind fun first => ?_
  refine bind (foldMany (I := fun found => .node found.1 :: L) (a := (first, true)) fun found => ?_)
    fun found => ret rfl
  exact ite (trailer hcall found.1) (ret rfl)

/-! ## Functions without a name -/

omit hcall in
/-- The stars in front of a parameter may be taken. -/
theorem parameterCategory : Builds length L Grammar.parameterCategory fun _ => L := by
  refine (tookOperator .multiply).bind fun list => ite (ret rfl) ?_
  exact (tookOperator .power).bind fun dictionary => ite (ret rfl) (ret rfl)

/-- A parameter may be read. -/
theorem parameter (allowHints : Bool) :
    Builds length L (Grammar.parameter call allowHints) fun id => .node id :: L := by
  unfold Grammar.parameter
  refine currentStart.bind fun start => parameterCategory.bind fun category => ?_
  refine (consume .identifier).bind fun token => ?_
  -- What comes after the name, and after the hint, is read in one way with and without these.
  extract_lets afterTitle unnamed
  have hafterTitle : ∀ title, Builds length (built title (.mark start :: L)) (afterTitle title)
      fun id => .node id :: L := by
    intro title
    unfold afterTitle
    extract_lets afterHint
    have hafterHint : ∀ hint, Builds length (built hint (built title (.mark start :: L)))
        (afterHint hint) fun id => .node id :: L := by
      intro hint
      refine (tookOperator .assign).bind fun hasDefault => ?_
      extract_lets rest
      have hrest : ∀ value,
          Builds length (built value (built hint (built title (.mark start :: L))))
          (rest value) fun id => .node id :: L := by
        refine fun value => node ?_ nofun
        simp [Form.children, built_eq]
      exact ite (bind (map (ofTest hcall)) hrest) (hrest none)
    refine ite ((took .colon).bind fun hasHint => ?_) (hafterHint none)
    exact ite (bind (map (ofTest hcall)) hafterHint) (hafterHint none)
  cases token with
  | some token => exact bind (map nameNode) hafterTitle
  | none =>
    refine ite ((tookOperator .divide).bind fun slash => ite ?_ ?_) (hafterTitle none)
    · exact (fault _).bind fun _ => advancePast.bind fun _ => hafterTitle none
    · exact hafterTitle none

/-- Parameters may be read. -/
theorem parameterList (terminator : TokenKind) (allowHints : Bool) :
    Builds length L (Grammar.parameterList call terminator allowHints) fun ids => pushed ids L :=
  separated (fun _ => read fun _ => rfl) fun _ => parameter hcall allowHints

/-- A function without a name may be read. -/
theorem lambda : Builds length L (Grammar.lambda call) fun id => .node id :: L := by
  unfold Grammar.lambda
  refine advanceFrom.bind fun token => ?_
  extract_lets start
  refine (parameterList hcall .colon false).bind fun parameters => (expect _ _).bind fun _ => ?_
  refine atExpressionEnd.bind fun stop => ?_
  extract_lets rest
  have hrest : ∀ id, Builds length (.node id :: pushed parameters (.mark start :: L)) (rest id)
      fun id => .node id :: L := by
    refine fun id => node ?_ nofun
    simp [Form.children]
  exact ite (bind missingExpression hrest) (bind (ofTest hcall) hrest)

end Rules

end Builds

end TypeProbe
