import TypeProbe.Proofs.Tree.LineExpressions
import TypeProbe.Tree.Parsed

/-!
# Simple statements take steps within a line

Simple statements hold no block: their rules keep to every `Course` up to the end of their line.
-/

open TypeProbe.Parser

namespace TypeProbe

namespace Keeps

variable {R : Course}

/-- Whether a simple statement ends may be seen. -/
theorem atStatementEnd : Keeps R Grammar.atStatementEnd := read fun _ => rfl

/-- A name may be read after a keyword. -/
theorem nameAfter (keyword : Keyword) (missing : SyntaxFault) :
    Keeps R (Grammar.nameAfter keyword missing) :=
  (tookKeyword keyword).bind fun _ => ite (map (name missing)) ret

/-! ## Imports -/

/-- The dots in front of the name of a module may be read. -/
theorem leadingDots : Keeps R Grammar.leadingDots := by
  refine (many ((took .dot).bind fun one => ite ret ?_)).bind fun dots => ret
  exact (took .ellipsis).bind fun three => ite ret ret

/-- The name of a module may be read. -/
theorem moduleName (allowRelative : Bool) : Keeps R (Grammar.moduleName allowRelative) := by
  unfold Grammar.moduleName
  refine currentStart.bind fun start => ?_
  extract_lets rest
  have hrest : ∀ dots, Keeps R (rest dots) := by
    refine fun dots => bind (foldMany fun found => ?_) fun found => ?_
    · exact ite ret (consumeTitle (fun _ => rfl) (fun part => (took .dot).bind fun goesOn => ret)
        ret)
    · have hnode : ∀ stop, Keeps R (Parser.addNode start stop
          (.moduleName dots found.1.reverse (found.2 && !found.1.isEmpty))) :=
        fun stop => addNode rfl rfl
      dsimp only
      exact ite ((fault _).bind fun _ => (read fun _ => rfl).bind fun _ => hnode _)
        ((read fun _ => rfl).bind fun _ => hnode _)
  exact ite (leadingDots.bind hrest) (hrest 0)

/-- One module of an import may be read. -/
theorem importItem : Keeps R Grammar.importItem :=
  currentStart.bind fun _ => (moduleName false).bind fun _ => (nameAfter _ _).bind fun _ =>
    node rfl rfl

/-- An import of modules may be read. -/
theorem importStatement : Keeps R Grammar.importStatement :=
  advance.bind fun _ => (separated (read fun _ => rfl) importItem).bind fun _ => node rfl rfl

/-- One symbol of an import may be read. -/
theorem importedSymbol : Keeps R Grammar.importedSymbol :=
  currentStart.bind fun _ => (name _).bind fun _ => (nameAfter _ _).bind fun _ => node rfl rfl

/-- The symbols of an import may be read. -/
theorem importedSymbols : Keeps R Grammar.importedSymbols :=
  (read fun _ => rfl).bind fun _ => ite ((fault _).bind fun _ => ret)
    (separated (read fun _ => rfl) importedSymbol)

/-- An import from a module may be read. -/
theorem fromStatement : Keeps R Grammar.fromStatement := by
  unfold Grammar.fromStatement
  refine advance.bind fun token => ?_
  extract_lets start
  refine (moduleName true).bind fun source => (tookKeyword .import).bind fun found => ite ?_ ?_
  · exact (fault _).bind fun _ => node rfl rfl
  refine (consumeOperator .multiply).bind fun star => ?_
  cases star with
  | some star => exact node rfl rfl
  | none =>
    refine (took .openParenthesis).bind fun usesParens => importedSymbols.bind fun imports => ?_
    exact ite ((expect _ _).bind fun _ => node rfl rfl) (node rfl rfl)

/-! ## Simple statements -/

/-- A keyword may be a statement. -/
theorem keywordStatement {form : Form} (hform : form.holdsBlock = false)
    (hword : form.isWord = false) : Keeps R (Grammar.keywordStatement form) :=
  advance.bind fun _ => tokenNode hform hword

/-- Names with commas between them may be read. -/
theorem nameList : Keeps R Grammar.nameList := separated (read fun _ => rfl) (name .identifier)

section Rules

variable {call : Rules} (hcall : RulesKeep R call)
include hcall

/-- What is assigned may be read. -/
theorem assigned : Keeps R (Grammar.assigned call) :=
  (read fun _ => rfl).bind fun _ => ite (yieldExpression hcall) (testList hcall)

/-- The rest of an assignment may be read. -/
theorem assignment (start : Nat) (left : NodeId) :
    Keeps R (Grammar.assignment call start left) := by
  unfold Grammar.assignment
  refine currentStart.bind fun rightStart => (assigned hcall).bind fun first => ?_
  refine (tookOperator .assign).bind fun goesOn => ?_
  extract_lets rest
  have hrest : ∀ id, Keeps R (rest id) := fun id => node rfl rfl
  exact ite ((hcall (.assignment rightStart first) rfl).bind hrest) (hrest first)

/-- A statement that starts with an expression may be read. -/
theorem expressionStatement : Keeps R (Grammar.expressionStatement call) := by
  refine currentStart.bind fun start => (assigned hcall).bind fun left => ?_
  refine (took .colon).bind fun hinted => ite ?_ ?_
  · refine (hcall .test rfl).bind fun hint => (node rfl rfl).bind fun hinted => ?_
    refine (tookOperator .assign).bind fun assigns => ite ret ?_
    exact (assigned hcall).bind fun right => node rfl rfl
  refine (tookOperator .assign).bind fun assigns => ite (assignment hcall start left) ?_
  refine look.bind fun token => ?_
  cases token.operator? with
  | none => exact ret
  | some op =>
    exact ite ret (advance.bind fun _ => (assigned hcall).bind fun right => node rfl rfl)

/-- A raising statement may be read. -/
theorem raiseStatement : Keeps R (Grammar.raiseStatement call) := by
  unfold Grammar.raiseStatement
  refine advance.bind fun token => ?_
  extract_lets start
  refine atStatementEnd.bind fun stop => ite (node rfl rfl) ?_
  refine (hcall .test rfl).bind fun exception => (tookKeyword .from).bind fun hasCause => ?_
  extract_lets rest
  have hrest : ∀ cause, Keeps R (rest cause) := fun cause => node rfl rfl
  exact ite (bind (map (hcall .test rfl)) hrest) (hrest none)

/-- A statement without a block may be read. -/
theorem simpleStatement : Keeps R (Grammar.simpleStatement call) := by
  unfold Grammar.simpleStatement
  refine look.bind fun token => ?_
  split
  · exact keywordStatement rfl rfl
  · exact keywordStatement rfl rfl
  · exact keywordStatement rfl rfl
  · refine advance.bind fun _ => atStatementEnd.bind fun stop => ?_
    extract_lets rest
    have hrest : ∀ id, Keeps R (rest id) := fun id => node rfl rfl
    exact ite (hrest none) (bind (map (testList hcall)) hrest)
  · exact raiseStatement hcall
  · exact advance.bind fun _ => (testItems hcall).bind fun targets => node rfl rfl
  · exact advance.bind fun _ => nameList.bind fun names => node rfl rfl
  · exact advance.bind fun _ => nameList.bind fun names => node rfl rfl
  · exact importStatement
  · exact fromStatement
  · refine advance.bind fun _ => (hcall .test rfl).bind fun condition => ?_
    refine (took .comma).bind fun hasMessage => ?_
    extract_lets rest
    have hrest : ∀ message, Keeps R (rest message) := fun message => node rfl rfl
    exact ite (bind (map (hcall .test rfl)) hrest) (hrest none)
  · exact expressionStatement hcall

/-- A simple statement of a line may be read. -/
theorem lineStatement : Keeps R (Grammar.lineStatement call) := by
  unfold Grammar.lineStatement
  refine (simpleStatement hcall).bind fun statement => ?_
  refine (took .semicolon).bind fun goesOn => ite ?_ ?_
  · exact (read fun _ => rfl).bind fun atEnd => ret
  · refine (read fun _ => rfl).bind fun atEnd => ?_
    dsimp only
    exact ite ((fault _).bind fun _ => skipToEndOfLine.bind fun _ => ret) ret

/-- The simple statements of a line may be read. -/
theorem statementList : Keeps R (Grammar.statementList call) := by
  refine currentStart.bind fun start => (lineStatement hcall).bind fun first => ?_
  refine bind (foldMany fun found => ?_) fun found => ?_
  · exact ite ret ((lineStatement hcall).bind fun next => ret)
  · exact (node rfl rfl).bind fun line => (consume .newLine).bind fun _ => ret

/-- A managed value may be read. -/
theorem withItem : Keeps R (Grammar.withItem call) := by
  unfold Grammar.withItem
  refine currentStart.bind fun start => (hcall .test rfl).bind fun expression => ?_
  refine (tookKeyword .as).bind fun bound => ?_
  extract_lets rest
  have hrest : ∀ target, Keeps R (rest target) := fun target => node rfl rfl
  exact ite (bind (map (targetList hcall)) hrest) (hrest none)

/-- A decorator may be read. -/
theorem decorator : Keeps R (Grammar.decorator call) := by
  unfold Grammar.decorator
  refine (consumeOperator .matrixMultiply).bind fun mark => ?_
  cases mark with
  | none => exact ret
  | some mark =>
    refine (read fun _ => rfl).bind fun empty => ?_
    extract_lets rest
    have hrest : ∀ id, Keeps R (rest id) := by
      refine fun expression => (node rfl rfl).bind fun decorator =>
        (read fun _ => rfl).bind fun _ => ?_
      dsimp only
      refine ite ((fault _).bind fun _ => skipToEndOfLine.bind fun _ => ?_) ?_
      · exact (consume .newLine).bind fun _ => ret
      · exact (consume .newLine).bind fun _ => ret
    refine ite (mend ?_) ((hcall .test rfl).bind hrest)
    exact (Mends.errorNode _ _).bind fun id => .of_keeps (hrest id)

end Rules

end Keeps

/-! ## All rules -/

/-- A rule that reads no block keeps to a relation, if such rules that it leads to do. -/
theorem Rule.body_keep {R : Course} {call : Rules} (hcall : RulesKeep R call) :
    RulesKeep R fun rule => rule.body call := by
  intro rule hrule
  cases rule with
  | test => exact Keeps.test hcall
  | lambda => exact Keeps.lambda hcall
  | notTest => exact Keeps.notTest hcall
  | factor => exact Keeps.factor hcall
  | atomExpression => exact Keeps.atomExpression hcall
  | statement => cases hrule
  | ifStatement => cases hrule
  | assignment start left => exact Keeps.assignment hcall start left

/-- All rules that read no block keep to a relation that takes no fault for granted, however deep
they call each other. -/
theorem Rule.parse_keep {R : Course} (hR : ∀ s, R.Faulty s) (fuel : Nat) :
    RulesKeep R (Rule.parse fuel) := by
  induction fuel with
  | zero => exact fun rule _ s => Mends.errorNode _ _ s (hR s)
  | succ fuel ih => exact Rule.body_keep ih

end TypeProbe
