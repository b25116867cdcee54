import TypeProbe.Proofs.Tree.ExpressionParts
import TypeProbe.Tree.Parsed

/-!
# Parts of statements

The rules for statements keep an arena shaped: titles, aliases and the names of a `global` statement
are names, what an import names is the name of a module, and what a function takes are parameters.
-/

open TypeProbe.Parser

namespace TypeProbe

namespace Shapes

variable {K : Known}

/-- Whether a simple statement ends may be seen. -/
theorem atStatementEnd : Shapes K Grammar.atStatementEnd fun _ => [] := read fun _ => rfl

/-- A name may be read after a keyword. -/
theorem nameAfter (keyword : Keyword) (missing : SyntaxFault) :
    Shapes K (Grammar.nameAfter keyword missing) fun id => allOf (.kind .name) id.toList :=
  (tookKeyword keyword).bind fun _ => ite (map (name missing)) ret

/-! ## Imports -/

/-- The dots in front of the name of a module may be read. -/
theorem leadingDots : Shapes K Grammar.leadingDots fun _ => [] := by
  refine (manyPlain fun K => (took .dot).bind fun one => ite ret ?_).bind fun dots => ret
  exact (took .ellipsis).bind fun three => ite ret ret

/-- The name of a module may be read; its parts are names. -/
theorem moduleName (allowRelative : Bool) :
    Shapes K (Grammar.moduleName allowRelative) fun id => [(id, .kind .moduleName)] := by
  unfold Grammar.moduleName
  refine currentStart.bind fun start => ?_
  extract_lets rest
  have hrest : ∀ dots, Shapes K (rest dots) fun id => [(id, .kind .moduleName)] := by
    intro dots
    refine bind (foldMany (N := fun found : List NodeId × Bool => allOf (.kind .name) found.1)
      (K := K) (a := ([], true)) fun K found => ?_) fun found => ?_
    · refine ite ret ((consume .identifier).bind fun token => ?_)
      cases token with
      | none => exact ret
      | some token =>
        refine nameNode.bind fun part => (took .dot).bind fun goesOn => give fun id hid => ?_
        have hparts : id ∈ (part, .kind .name) :: (allOf (.kind .name) found.1 ++ K) :=
          List.mem_append_left K hid
        exact hparts
    · have hnode : ∀ stop, Shapes (allOf (.kind .name) found.1 ++ K) (addNode start stop
          (.moduleName dots found.1.reverse (found.2 && !found.1.isEmpty)))
          fun id => [(id, .kind .moduleName)] := by
        refine fun stop => add (fun part hpart => List.mem_append_left _ ?_) nofun
        simpa [Form.fixedParts] using hpart
      dsimp only
      exact ite ((fault _).bind fun _ => (read fun _ => rfl).bind fun _ => hnode _)
        ((read fun _ => rfl).bind fun _ => hnode _)
  exact ite (leadingDots.bind hrest) (hrest 0)

/-- One module of an import may be read; its alias is a name. -/
theorem importItem (K : Known) : Shapes K Grammar.importItem fun _ => [] := by
  refine currentStart.bind fun start => (moduleName false).bind fun source => ?_
  refine (nameAfter _ _).bind fun newName => drop (node (fun part hpart => ?_) nofun)
  rcases List.mem_cons.1 hpart with rfl | hpart
  · exact List.mem_append_right _ List.mem_cons_self
  · exact List.mem_append_left _ hpart

/-- An import of modules may be read. -/
theorem importStatement : Shapes K Grammar.importStatement fun _ => [] :=
  advance.bind fun _ => (separatedPlain (fun _ => read fun _ => rfl) importItem).bind fun _ =>
    plain rfl nofun

/-- One symbol of an import may be read; it and its alias are names. -/
theorem importedSymbol (K : Known) : Shapes K Grammar.importedSymbol fun _ => [] := by
  refine currentStart.bind fun start => (name _).bind fun title => ?_
  refine (nameAfter _ _).bind fun newName => drop (node (fun part hpart => ?_) nofun)
  rcases List.mem_cons.1 hpart with rfl | hpart
  · exact List.mem_append_right _ List.mem_cons_self
  · exact List.mem_append_left _ hpart

/-- The symbols of an import may be read. -/
theorem importedSymbols : Shapes K Grammar.importedSymbols fun _ => [] :=
  (read fun _ => rfl).bind fun _ => ite ((fault _).bind fun _ => ret)
    (separatedPlain (fun _ => read fun _ => rfl) importedSymbol)

/-- An import from a module may be read. -/
theorem fromStatement : Shapes K Grammar.fromStatement fun _ => [] := by
  unfold Grammar.fromStatement
  refine advance.bind fun token => ?_
  extract_lets start
  refine (moduleName true).bind fun source => (tookKeyword .import).bind fun found => ite ?_ ?_
  · exact (fault _).bind fun _ => plain rfl nofun
  refine (consumeOperator .multiply).bind fun star => ?_
  cases star with
  | some star => exact plain rfl nofun
  | none =>
    refine (took .openParenthesis).bind fun usesParens => importedSymbols.bind fun imports => ?_
    exact ite ((expect _ _).bind fun _ => plain rfl nofun) (plain rfl nofun)

/-! ## Simple statements -/

/-- A keyword may be a statement. -/
theorem keywordStatement {form : Form} (hparts : form.fixedParts = [])
    (hmodule : form.kind ≠ .module) : Shapes K (Grammar.keywordStatement form) fun _ => [] :=
  advance.bind fun _ => addPlain hparts hmodule

/-- Names with commas between them may be read. -/
theorem nameList : Shapes K Grammar.nameList (allOf (.kind .name)) :=
  (separated (fun _ => read fun _ => rfl) fun _ => name .identifier).congr fun _ =>
    List.map_eq_flatMap

section Rules

variable {call : Rules} (hcall : RulesShape call)
include hcall

/-- What is assigned may be read. -/
theorem assigned : Inlines K (Grammar.assigned call) :=
  bind (read fun _ => rfl) fun _ => ite (yieldExpression hcall) (testList hcall)

/-- The rest of an assignment may be read. -/
theorem assignment (start : Nat) (left : NodeId) :
    Shapes K (Grammar.assignment call start left) fun _ => [] := by
  unfold Grammar.assignment
  refine currentStart.bind fun rightStart => (assigned hcall).bind fun first => ?_
  refine (tookOperator .assign).bind fun goesOn => ?_
  extract_lets rest
  have hrest : ∀ K id, Shapes K (rest id) fun _ => [] := fun K id => plain rfl nofun
  refine ite ((hcall.plain (.assignment rightStart first) _ ?_).bind (hrest _)) (hrest _ first)
  simp [Rule.given?]

/-- A statement that starts with an expression may be read. -/
theorem expressionStatement : Shapes K (Grammar.expressionStatement call) fun _ => [] := by
  refine currentStart.bind fun start => (assigned hcall).bind fun left => ?_
  refine (took .colon).bind fun hinted => ite ?_ ?_
  · refine (hcall.inline .test rfl _).bind fun hint => bind (inline rfl rfl ?_) fun hinted => ?_
    · simp [Form.children]
    refine (tookOperator .assign).bind fun assigns => ite ret ?_
    exact (assigned hcall).bind fun right => plain rfl (by simp [Form.kind])
  refine (tookOperator .assign).bind fun assigns => ite (assignment hcall start left) ?_
  refine look.bind fun token => ?_
  cases token.operator? with
  | none => exact ret
  | some op =>
    refine ite ret (advance.bind fun _ => ?_)
    exact (assigned hcall).bind fun right => plain rfl (by simp [Form.kind])

/-- A raising statement may be read. -/
theorem raiseStatement : Shapes K (Grammar.raiseStatement call) fun _ => [] := by
  unfold Grammar.raiseStatement
  refine advance.bind fun token => ?_
  extract_lets start
  refine atStatementEnd.bind fun stop => ite (plain rfl nofun) ?_
  refine (hcall.inline .test rfl _).bind fun exception => ?_
  refine (tookKeyword .from).bind fun hasCause => ?_
  extract_lets rest
  have hrest : ∀ K cause, Shapes K (rest cause) fun _ => [] := fun K cause => plain rfl nofun
  exact ite ((map (drop (hcall.inline .test rfl _))).bind (hrest _)) (hrest _ none)

/-- A statement without a block may be read. -/
theorem simpleStatement : Shapes K (Grammar.simpleStatement call) fun _ => [] := by
  unfold Grammar.simpleStatement
  refine look.bind fun token => ?_
  have hnames : ∀ form : List NodeId → Form,
      (∀ names, (form names).fixedParts = allOf (.kind .name) names) →
      (∀ names, (form names).kind ≠ .module) → Shapes K (do
        let _ ← Parser.advance
        let names ← Grammar.nameList
        Parser.node token.start (form names)) fun _ => [] := fun form hparts hmodule =>
    advance.bind fun _ => nameList.bind fun names =>
      drop (node (hparts names ▸ List.subset_append_left _ _) (hmodule names))
  split
  · exact keywordStatement rfl nofun
  · exact keywordStatement rfl nofun
  · exact keywordStatement rfl nofun
  · refine advance.bind fun _ => atStatementEnd.bind fun stop => ?_
    extract_lets rest
    have hrest : ∀ K (id : Option NodeId), (∀ c ∈ id.toList, (c, .inline) ∈ K) →
        Shapes K (rest id) fun _ => [] :=
      fun K id hid => drop (node (fixedParts_subset rfl hid) nofun)
    refine ite (hrest _ none (by simp)) ?_
    exact bind (N := fun id => allOf .inline id.toList) (map (testList hcall)) fun id =>
      hrest _ id (by simp +contextual)
  · exact raiseStatement hcall
  · exact advance.bind fun _ => (testItems hcall).bind fun targets => plain rfl nofun
  · exact hnames .global (fun _ => rfl) (fun _ => nofun)
  · exact hnames .nonlocal (fun _ => rfl) (fun _ => nofun)
  · exact importStatement
  · exact fromStatement
  · refine advance.bind fun _ => (hcall.inline .test rfl _).bind fun condition => ?_
    refine (took .comma).bind fun hasMessage => ?_
    extract_lets rest
    have hrest : ∀ K message, Shapes K (rest message) fun _ => [] :=
      fun K message => plain rfl nofun
    exact ite ((map (drop (hcall.inline .test rfl _))).bind (hrest _)) (hrest _ none)
  · exact expressionStatement hcall

/-- A simple statement of a line may be read. -/
theorem lineStatement : Shapes K (Grammar.lineStatement call) fun _ => [] := by
  unfold Grammar.lineStatement
  refine (simpleStatement hcall).bind fun statement => ?_
  refine (took .semicolon).bind fun goesOn => ite ?_ ?_
  · exact bind (read fun _ => rfl) fun atEnd => ret
  · refine bind (read fun _ => rfl) fun atEnd => ?_
    dsimp only
    exact ite ((fault _).bind fun _ => skipToEndOfLine.bind fun _ => ret) ret

/-- The simple statements of a line may be read. -/
theorem statementList : Shapes K (Grammar.statementList call) fun _ => [] := by
  refine currentStart.bind fun start => (lineStatement hcall).bind fun first => ?_
  refine bind (foldPlain fun K found => ?_) fun found => ?_
  · exact ite ret ((lineStatement hcall).bind fun next => ret)
  · exact bind (plain rfl nofun) fun line => (consume .newLine).bind fun _ => ret

/-! ## Blocks -/

/-- A statement of a block, or a token that is none, may be read. -/
theorem blockItem : Shapes K (Grammar.blockItem call) fun _ => [] := by
  refine look.bind fun token => ?_
  split
  · exact ret
  · exact advance.bind fun _ => ite ((faultAt _ _).bind fun _ => ret) ret
  · exact (fault _).bind fun _ => advance.bind fun _ => ret
  · exact advance.bind fun _ => ret
  · exact (hcall.plain .statement _ nofun).bind fun _ => ret

/-- A colon and a block may be read. -/
theorem suite : Shapes K (Grammar.suite call) fun _ => [] := by
  unfold Grammar.suite
  refine currentStart.bind fun start => (consume .colon).bind fun colon => ?_
  extract_lets rest
  have hrest : ∀ K colonStop, Shapes K (rest colonStop) fun _ => [] := by
    intro K colonStop
    refine (took .newLine).bind fun onLine => ite ?_ ?_
    · refine bind (read fun _ => rfl) fun empty => ?_
      extract_lets simple
      have hsimple : ∀ K statements, Shapes K (simple statements) fun _ => [] :=
        fun K statements => addPlain rfl nofun
      exact ite (hsimple _ []) (bind (map (statementList hcall)) (hsimple _))
    refine (took .indent).bind fun indented => ite ?_ ?_
    · exact (fault _).bind fun _ => addPlain rfl nofun
    refine (manyPlain fun _ => blockItem hcall).bind fun items => ?_
    exact (read fun _ => rfl).bind fun s => addPlain rfl nofun
  cases colon with
  | some colon => exact hrest _ colon.stop
  | none => exact (fault _).bind fun _ => hrest _ start

/-- A block may be read after a keyword. -/
theorem suiteAfter (keyword : Keyword) : Shapes K (Grammar.suiteAfter call keyword) fun _ => [] :=
  (tookKeyword keyword).bind fun _ => ite (map (suite hcall)) ret

/-! ## Functions and classes -/

/-- A function may be read from its name on; its title is a name, and it takes parameters. -/
theorem functionFrom (start : Nat) (decorators : List NodeId) (isAsync : Bool) :
    Shapes K (Grammar.functionFrom call start decorators isAsync) fun _ => [] := by
  unfold Grammar.functionFrom
  refine (name .functionName).bind fun title => (took .openParenthesis).bind fun found => ite ?_ ?_
  · refine knownInline (List.mem_cons_self : (title, Trait.kind .name) ∈ _) rfl ?_
    refine (fault _).bind fun _ => (errorNode _ (by simp)).bind fun error => ?_
    exact skipToEndOfLine.bind fun _ => ret
  refine (parameterList hcall .closeParenthesis true).bind fun parameters => ?_
  refine (expect _ _).bind fun _ => (took .arrow).bind fun arrow => ?_
  extract_lets rest
  have hrest : ∀ K hint, allOf (.kind .parameter) parameters ⊆ K → (title, .kind .name) ∈ K →
      Shapes K (rest hint) fun _ => [] := fun K hint hparameters htitle =>
    (suite hcall).bind fun body =>
      drop (add (List.cons_subset.2 ⟨htitle, hparameters⟩) nofun)
  have hhint : ∀ {K}, Shapes K (some <$> call .test) fun _ => [] :=
    map (drop (hcall.inline .test rfl _))
  exact ite (hhint.bind fun hint => hrest _ hint (by simp) (by simp))
    (hrest _ none (by simp) (by simp))

/-- A function may be read from its keyword on. -/
theorem functionDefinition (decorators : List NodeId) (asyncStart : Option Nat) :
    Shapes K (Grammar.functionDefinition call decorators asyncStart) fun _ => [] :=
  advance.bind fun _ => functionFrom hcall _ decorators _

/-- A class may be read; its title is a name. -/
theorem classDefinition (decorators : List NodeId) :
    Shapes K (Grammar.classDefinition call decorators) fun _ => [] := by
  unfold Grammar.classDefinition
  refine advance.bind fun keyword => ?_
  extract_lets start
  refine (name .className).bind fun title => (took .openParenthesis).bind fun found => ?_
  extract_lets rest
  have hrest : ∀ K arguments, (title, .kind .name) ∈ K → Shapes K (rest arguments) fun _ => [] :=
    fun K arguments htitle => (suite hcall).bind fun body =>
      drop (add (List.cons_subset.2 ⟨htitle, List.nil_subset _⟩) nofun)
  refine ite ?_ (hrest _ [] (by simp))
  refine (argumentList hcall).bind fun arguments => (expect _ _).bind fun _ => ?_
  exact hrest _ arguments (by simp)

/-- A decorator may be read. -/
theorem decorator : Shapes K (Grammar.decorator call) fun _ => [] := by
  unfold Grammar.decorator
  refine (consumeOperator .matrixMultiply).bind fun mark => ?_
  cases mark with
  | none => exact ret
  | some mark =>
    refine bind (read fun _ => rfl) fun empty => ?_
    extract_lets rest
    have hrest : ∀ K id, Shapes K (rest id) fun _ => [] := by
      intro K expression
      refine bind (plain rfl nofun) fun decorator => bind (read fun _ => rfl) fun atEnd => ?_
      dsimp only
      refine ite ((fault _).bind fun _ => skipToEndOfLine.bind fun _ => ?_) ?_
      · exact (consume .newLine).bind fun _ => ret
      · exact (consume .newLine).bind fun _ => ret
    refine ite ((fault _).bind fun _ => ?_) ((hcall.inline .test rfl _).bind fun id => hrest _ id)
    exact (errorNode _ (by simp)).bind fun id => hrest _ id

/-- Decorators and what they stand before may be read. -/
theorem decorated : Shapes K (Grammar.decorated call) fun _ => [] := by
  refine (manyPlain fun _ => decorator hcall).bind fun decorators => ?_
  refine look.bind fun token => bind (read fun _ => rfl) fun second => ?_
  refine ite (functionDefinition hcall decorators none) ?_
  refine ite (classDefinition hcall decorators) ?_
  refine ite (advance.bind fun token => ?_) ((fault _).bind fun _ => ?_)
  · exact functionDefinition hcall decorators (some token.start)
  · refine (read fun _ => rfl).bind fun s => ?_
    exact currentStart.bind fun start => addPlain rfl nofun

/-! ## Statements with blocks -/

/-- A conditional statement may be read. -/
theorem ifStatement : Shapes K (Grammar.ifStatement call) fun _ => [] := by
  unfold Grammar.ifStatement
  refine advance.bind fun keyword => ?_
  extract_lets start
  refine (hcall.inline .test rfl _).bind fun condition => (suite hcall).bind fun body => ?_
  refine bind (read fun _ => rfl) fun goesOn => ?_
  extract_lets rest
  have hrest : ∀ K other, Shapes K (rest other) fun _ => [] := fun K other => addPlain rfl nofun
  refine ite ?_ (bind (suiteAfter hcall .else) (hrest _))
  exact bind (map (hcall.plain .ifStatement _ nofun)) (hrest _)

/-- A loop under a condition may be read. -/
theorem whileStatement : Shapes K (Grammar.whileStatement call) fun _ => [] :=
  advance.bind fun _ => (hcall.inline .test rfl _).bind fun _ => (suite hcall).bind fun _ =>
    (suiteAfter hcall .else).bind fun _ => addPlain rfl nofun

/-- A loop over the items of a value may be read. -/
theorem forStatement (asyncStart : Option Nat) :
    Shapes K (Grammar.forStatement call asyncStart) fun _ => [] := by
  unfold Grammar.forStatement
  refine advance.bind fun keyword => ?_
  extract_lets start
  refine (targetList hcall).bind fun target => (tookKeyword .in).bind fun found => ?_
  extract_lets rest
  have hrest : ∀ K iterable, Shapes K (rest iterable) fun _ => [] := fun K iterable =>
    (suite hcall).bind fun body => (suiteAfter hcall .else).bind fun other => addPlain rfl nofun
  refine ite ((testList hcall).bind fun id => hrest _ id) ((fault _).bind fun _ => ?_)
  exact (errorNode .missingIn (by simp)).bind fun id => hrest _ id

/-- What is done on some exceptions may be read. -/
theorem exceptClause : Shapes K (Grammar.exceptClause call) fun _ => [] := by
  unfold Grammar.exceptClause
  refine (consumeKeyword .except).bind fun token => ?_
  cases token with
  | none => exact ret
  | some token =>
    refine bind (read fun _ => rfl) fun bare => ?_
    extract_lets rest
    have hrest : ∀ K names, Shapes K (rest names) fun _ => [] := fun K names =>
      (suite hcall).bind fun body => bind (addPlain rfl nofun) fun _ => ret
    refine ite (hrest _ (none, none)) ((hcall.inline .test rfl _).bind fun expression => ?_)
    exact (nameAfter _ _).bind fun title => hrest _ (some expression, title)

/-- A block that may fail and what is done then may be read. -/
theorem tryStatement : Shapes K (Grammar.tryStatement call) fun _ => [] := by
  unfold Grammar.tryStatement
  refine advance.bind fun keyword => ?_
  extract_lets start
  refine (suite hcall).bind fun body => ?_
  refine (manyPlain fun _ => exceptClause hcall).bind fun clauses => ?_
  extract_lets rest
  have hrest : ∀ K other, Shapes K (rest other) fun _ => [] := by
    refine fun K other => (suiteAfter hcall .finally).bind fun final => ?_
    dsimp only
    exact ite ((fault _).bind fun _ => addPlain rfl nofun) (addPlain rfl nofun)
  exact ite (hrest _ none) (bind (suiteAfter hcall .else) (hrest _))

/-- A managed value may be read. -/
theorem withItem (K : Known) : Shapes K (Grammar.withItem call) fun _ => [] := by
  unfold Grammar.withItem
  refine currentStart.bind fun start => (hcall.inline .test rfl _).bind fun expression => ?_
  refine (tookKeyword .as).bind fun bound => ?_
  extract_lets rest
  have hrest : ∀ K target, Shapes K (rest target) fun _ => [] := fun K target => plain rfl nofun
  exact ite ((map (drop (targetList hcall))).bind (hrest _)) (hrest _ none)

/-- A block with managed values may be read. -/
theorem withStatement (asyncStart : Option Nat) :
    Shapes K (Grammar.withStatement call asyncStart) fun _ => [] :=
  advance.bind fun _ => (separatedPlain (fun _ => read fun _ => rfl) (withItem hcall)).bind
    fun _ => (suite hcall).bind fun _ => addPlain rfl nofun

/-- An asynchronous statement may be read. -/
theorem asyncStatement : Shapes K (Grammar.asyncStatement call) fun _ => [] := by
  unfold Grammar.asyncStatement
  refine bind (read fun _ => rfl) fun second => ?_
  split
  · exact advance.bind fun token => functionDefinition hcall [] (some token.start)
  · exact advance.bind fun token => forStatement hcall (some token.start)
  · exact advance.bind fun token => withStatement hcall (some token.start)
  · exact (fault _).bind fun _ => statementList hcall

/-- A statement may be read. -/
theorem statement : Shapes K (Grammar.statement call) fun _ => [] := by
  unfold Grammar.statement
  refine look.bind fun token => ?_
  split
  · exact functionDefinition hcall [] none
  · exact classDefinition hcall []
  · exact ifStatement hcall
  · exact whileStatement hcall
  · exact forStatement hcall none
  · exact tryStatement hcall
  · exact withStatement hcall none
  · exact asyncStatement hcall
  · exact decorated hcall
  · exact statementList hcall

/-- A statement of a text, or a token that is none, may be read. -/
theorem moduleItem : Shapes K (Grammar.moduleItem call) fun _ => [] := by
  refine look.bind fun token => ?_
  split
  · exact ret
  · exact advance.bind fun _ => ret
  · exact (fault _).bind fun _ => advance.bind fun _ => ret
  · exact (fault _).bind fun _ => advance.bind fun _ => ret
  · exact (hcall.plain .statement _ nofun).bind fun _ => ret

end Rules

end Shapes

/-! ## All rules -/

/-- Each rule keeps an arena shaped, if the rules that it leads to do. -/
theorem Rule.body_shapes {call : Rules} (hcall : RulesShape call) :
    RulesShape fun rule => rule.body call := by
  have hinline : ∀ rule : Rule, rule.isInline = true → ∀ K, Inlines K (rule.body call) := by
    intro rule hrule K
    cases rule with
    | test => exact Shapes.test hcall
    | lambda => exact Shapes.lambda hcall
    | notTest => exact Shapes.notTest hcall K
    | factor => exact Shapes.factor hcall K
    | atomExpression => exact Shapes.atomExpression hcall
    | _ => cases hrule
  refine ⟨hinline, fun rule K _ => ?_⟩
  cases rule with
  | statement => exact Shapes.statement hcall
  | ifStatement => exact Shapes.ifStatement hcall
  | assignment start left => exact Shapes.assignment hcall start left
  | _ => exact Shapes.drop (hinline _ rfl K)

/-- All rules keep an arena shaped, however deep they call each other. -/
theorem Rule.parse_shapes (fuel : Nat) : RulesShape (Rule.parse fuel) := by
  induction fuel with
  | zero =>
    refine ⟨fun rule hrule K => Shapes.errorNode _ ?_, fun rule K hgiven =>
      Shapes.drop (Shapes.errorNode _ hgiven)⟩
    -- Only the rest of an assignment goes on from a node, and it gives no expression.
    have hnone : rule.given? = none := by cases rule <;> first | rfl | cases hrule
    simp [hnone]
  | succ fuel ih => exact Rule.body_shapes ih

end TypeProbe
