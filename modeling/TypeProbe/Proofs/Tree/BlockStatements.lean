import TypeProbe.Proofs.Tree.LineStatements

/-!
# Steps of statements with blocks

Beyond what is read within a line, statements with blocks add nodes that hold blocks, and note a
fault where the end of a block was taken that closes no block. A relation that allows both
(`Course.Blocks`) is kept to by all rules.
-/

open TypeProbe.Parser

namespace TypeProbe

/-- A relation that all steps of parsers keep to, not only those within a line. -/
structure Course.Blocks (R : Course) : Prop where
  /-- Nodes of all forms may be added, other than names with text and numbers. -/
  allows : ∀ {form : Form}, form.lexeme? = none → R.Allows form
  /-- The end of a block may be taken, and a fault noted where it stood. -/
  unmatched : ∀ (s : ParseState) (f : SyntaxFault), s.current.kind = .dedent →
    R.Leads s ((Parser.faultAt s.current.range f).run (Parser.advanced s)).2

namespace Keeps

variable {R : Course}

/-- A node may be added that holds blocks. -/
theorem addBlock (hR : R.Blocks) {start stop : Nat} {form : Form}
    (hword : form.isWord = false) : Keeps R (Parser.addNode start stop form) := fun s =>
  R.add s (hR.allows (Form.lexeme?_of_isWord hword)) fun h =>
    absurd ((Form.standsIn_of_isWord hword).symm.trans h) Bool.false_ne_true

section Rules

variable (hR : R.Blocks) {call : Rules} (hcall : ∀ rule, Keeps R (call rule))
include hR hcall

/-! ## Blocks -/

omit hR in
/-- A statement may be read as an item. -/
theorem statementItem : Keeps R (do return some (some (← call .statement))) :=
  (hcall .statement).bind fun _ => ret

/-- An item of a block may be read. -/
theorem blockItem : Keeps R (Grammar.blockItem call) := by
  refine lookAt fun s => ?_
  have hitem := statementItem hcall
  split
  · exact R.refl s
  · rename_i matchesIndent hdedent
    cases matchesIndent with
    | true => exact R.advanced s
    | false => exact hR.unmatched s _ (congrArg Lexeme.kind hdedent)
  · exact ((fault _).bind fun _ => advance.bind fun _ => ret) s
  · exact R.advanced s
  · exact hitem s

omit hR in
/-- An item of a text may be read. -/
theorem moduleItem : Keeps R (Grammar.moduleItem call) := by
  refine look.bind fun token => ?_
  have hitem := statementItem hcall
  split
  · exact ret
  · exact advance.bind fun _ => ret
  · exact (fault _).bind fun _ => advance.bind fun _ => ret
  · exact (fault _).bind fun _ => advance.bind fun _ => ret
  · exact hitem

/-- A text may be read. -/
theorem module (length : Nat) : Keeps R (Grammar.module call length) :=
  (many (moduleItem hcall)).bind fun _ => addBlock hR rfl

/-- A colon and a block may be read. -/
theorem suite : Keeps R (Grammar.suite call) := by
  unfold Grammar.suite
  refine currentStart.bind fun start => (consume .colon).bind fun colon => ?_
  extract_lets rest
  have hrest : ∀ colonStop, Keeps R (rest colonStop) := by
    have hblock : ∀ stop (statements : List NodeId),
        Keeps R (Parser.addNode start stop (.suite statements)) := fun _ _ => addBlock hR rfl
    refine fun colonStop => (took .newLine).bind fun ends => ite ?_ ?_
    · refine (read fun _ => rfl).bind fun empty => ?_
      exact ite (hblock _ _) (bind (map (statementList fun rule _ => hcall rule)) fun _ =>
        hblock _ _)
    refine (took .indent).bind fun indented => ite ?_ ?_
    · exact (fault _).bind fun _ => hblock _ _
    · exact (many (blockItem hR hcall)).bind fun _ => (read fun _ => rfl).bind fun _ => hblock _ _
  cases colon with
  | some colon => exact hrest colon.stop
  | none => exact (fault _).bind fun _ => hrest start

/-- A block may be read after a keyword. -/
theorem suiteAfter (keyword : Keyword) : Keeps R (Grammar.suiteAfter call keyword) :=
  (tookKeyword keyword).bind fun _ => ite (map (suite hR hcall)) ret

/-! ## Functions and classes -/

/-- A function may be read after its keyword. -/
theorem functionFrom (start : Nat) (decorators : List NodeId) (isAsync : Bool) :
    Keeps R (Grammar.functionFrom call start decorators isAsync) := by
  unfold Grammar.functionFrom
  refine (name .functionName).bind fun title => (took .openParenthesis).bind fun opens => ite ?_ ?_
  · refine mend ((Mends.errorNode _ _).bind fun error => .of_keeps ?_)
    exact skipToEndOfLine.bind fun _ => ret
  refine (parameterList (fun rule _ => hcall rule) .closeParenthesis true).bind fun parameters => ?_
  refine (expect _ _).bind fun _ => (took .arrow).bind fun hinted => ?_
  extract_lets rest
  have hrest : ∀ hint, Keeps R (rest hint) := fun hint =>
    (suite hR hcall).bind fun body => addBlock hR rfl
  exact ite (bind (map (hcall .test)) hrest) (hrest none)

/-- A function may be read from its keyword on. -/
theorem functionDefinition (decorators : List NodeId) (asyncStart : Option Nat) :
    Keeps R (Grammar.functionDefinition call decorators asyncStart) :=
  advance.bind fun _ => functionFrom hR hcall _ _ _

/-- A class may be read. -/
theorem classDefinition (decorators : List NodeId) :
    Keeps R (Grammar.classDefinition call decorators) := by
  unfold Grammar.classDefinition
  refine advance.bind fun token => ?_
  extract_lets start
  refine (name .className).bind fun title => (took .openParenthesis).bind fun opens => ?_
  extract_lets rest
  have hrest : ∀ arguments, Keeps R (rest arguments) := fun arguments =>
    (suite hR hcall).bind fun body => addBlock hR rfl
  refine ite ?_ (hrest [])
  exact (argumentList fun rule _ => hcall rule).bind fun arguments =>
    (expect _ _).bind fun _ => hrest arguments

/-- Decorators and what they stand before may be read. -/
theorem decorated : Keeps R (Grammar.decorated call) := by
  refine (many (decorator fun rule _ => hcall rule)).bind fun decorators => ?_
  refine look.bind fun first => (read fun _ => rfl).bind fun second => ?_
  refine ite (functionDefinition hR hcall _ _) (ite (classDefinition hR hcall _) ?_)
  refine ite (advance.bind fun token => functionDefinition hR hcall _ _) ?_
  refine (fault _).bind fun _ => (read fun _ => rfl).bind fun s => currentStart.bind fun start => ?_
  exact addBlock hR rfl

/-! ## Statements with blocks -/

/-- A conditional statement may be read. -/
theorem ifStatement : Keeps R (Grammar.ifStatement call) := by
  unfold Grammar.ifStatement
  refine advance.bind fun token => ?_
  extract_lets start
  refine (hcall .test).bind fun condition => (suite hR hcall).bind fun body => ?_
  refine (read fun _ => rfl).bind fun again => ?_
  extract_lets rest
  have hrest : ∀ other, Keeps R (rest other) := fun other => addBlock hR rfl
  exact ite (bind (map (hcall .ifStatement)) hrest) ((suiteAfter hR hcall .else).bind hrest)

/-- A loop under a condition may be read. -/
theorem whileStatement : Keeps R (Grammar.whileStatement call) :=
  advance.bind fun _ => (hcall .test).bind fun _ => (suite hR hcall).bind fun _ =>
    (suiteAfter hR hcall .else).bind fun _ => addBlock hR rfl

/-- A loop over the items of a value may be read. -/
theorem forStatement (asyncStart : Option Nat) :
    Keeps R (Grammar.forStatement call asyncStart) := by
  unfold Grammar.forStatement
  refine advance.bind fun token => ?_
  extract_lets start
  refine (targetList fun rule _ => hcall rule).bind fun target => ?_
  refine (tookKeyword .in).bind fun found => ?_
  extract_lets rest
  have hrest : ∀ iterable, Keeps R (rest iterable) := fun iterable =>
    (suite hR hcall).bind fun body => (suiteAfter hR hcall .else).bind fun _ => addBlock hR rfl
  refine ite ((testList fun rule _ => hcall rule).bind hrest) (mend ?_)
  exact (Mends.errorNode _ _).bind fun iterable => .of_keeps (hrest iterable)

/-- What is done on some exceptions may be read. -/
theorem exceptClause : Keeps R (Grammar.exceptClause call) := by
  unfold Grammar.exceptClause
  refine (consumeKeyword .except).bind fun token => ?_
  cases token with
  | none => exact ret
  | some token =>
    refine (read fun _ => rfl).bind fun bare => ?_
    extract_lets rest
    have hrest : ∀ names, Keeps R (rest names) := fun names =>
      (suite hR hcall).bind fun body => bind (addBlock hR rfl) fun _ => ret
    refine ite (hrest (none, none)) ((hcall .test).bind fun expression => ?_)
    exact (nameAfter .as .exceptionName).bind fun title => hrest (some expression, title)

/-- A block that may fail and what is done then may be read. -/
theorem tryStatement : Keeps R (Grammar.tryStatement call) := by
  unfold Grammar.tryStatement
  refine advance.bind fun token => ?_
  extract_lets start
  refine (suite hR hcall).bind fun body => (many (exceptClause hR hcall)).bind fun clauses => ?_
  extract_lets rest
  have hrest : ∀ other, Keeps R (rest other) := by
    refine fun other => (suiteAfter hR hcall .finally).bind fun final => ?_
    extract_lets last
    have hlast : Keeps R (last ⟨⟩) := addBlock hR rfl
    exact ite ((fault _).bind fun _ => hlast) hlast
  exact ite (hrest none) ((suiteAfter hR hcall .else).bind hrest)

/-- A block with managed values may be read. -/
theorem withStatement (asyncStart : Option Nat) :
    Keeps R (Grammar.withStatement call asyncStart) := by
  unfold Grammar.withStatement
  refine advance.bind fun token => ?_
  extract_lets start
  refine (separated (read fun _ => rfl) (withItem fun rule _ => hcall rule)).bind fun items => ?_
  exact (suite hR hcall).bind fun body => addBlock hR rfl

/-- An asynchronous statement may be read. -/
theorem asyncStatement : Keeps R (Grammar.asyncStatement call) := by
  refine (read fun _ => rfl).bind fun second => ?_
  split
  · exact advance.bind fun _ => functionDefinition hR hcall _ _
  · exact advance.bind fun _ => forStatement hR hcall _
  · exact advance.bind fun _ => withStatement hR hcall _
  · exact (fault _).bind fun _ => statementList fun rule _ => hcall rule

/-- A statement may be read. -/
theorem statement : Keeps R (Grammar.statement call) := by
  refine look.bind fun token => ?_
  split
  · exact functionDefinition hR hcall _ _
  · exact classDefinition hR hcall _
  · exact ifStatement hR hcall
  · exact whileStatement hR hcall
  · exact forStatement hR hcall _
  · exact tryStatement hR hcall
  · exact withStatement hR hcall _
  · exact asyncStatement hR hcall
  · exact decorated hR hcall
  · exact statementList fun rule _ => hcall rule

end Rules

end Keeps

/-! ## All rules -/

/-- A rule keeps to a relation, if the rules that it leads to do. -/
theorem Rule.body_keepBlocks {R : Course} (hR : R.Blocks) {call : Rules}
    (hcall : ∀ rule, Keeps R (call rule)) (rule : Rule) : Keeps R (rule.body call) := by
  cases hrule : rule.readsBlock with
  | false => exact Rule.body_keep (fun rule _ => hcall rule) rule hrule
  | true =>
    cases rule with
    | statement => exact Keeps.statement hR hcall
    | ifStatement => exact Keeps.ifStatement hR hcall
    | _ => cases hrule

/-- All rules keep to a relation that takes no fault for granted, however deep they call each
other. -/
theorem Rule.parse_keepBlocks {R : Course} (hR : R.Blocks) (hfaulty : ∀ s, R.Faulty s)
    (fuel : Nat) (rule : Rule) : Keeps R (Rule.parse fuel rule) := by
  induction fuel generalizing rule with
  | zero => exact fun s => Mends.errorNode _ _ s (hfaulty s)
  | succ fuel ih => exact Rule.body_keepBlocks hR ih rule

end TypeProbe
