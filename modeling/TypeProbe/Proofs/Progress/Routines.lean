import TypeProbe.Proofs.Tree.BlockStatements

/-!
# The parsers of a text

The parsers that the grammar is made of are its `Routine`s. From whatever state each of them begins,
it goes on to later tokens only, does not take the end of the stream, and leaves as many nested
expressions as it enters (`Routine.passes`).
-/

open TypeProbe.Parser

namespace TypeProbe

namespace Grammar

/-- A parser of the grammar with what it is given. -/
inductive Routine where
  | testList
  | testItems
  | targetList
  | testOrStar
  | starOrBitwiseOr
  | test
  | lambda
  | yieldExpression
  | orTest
  | andTest
  | notTest
  | comparison
  | bitwiseOr
  | binaryLevels (levels : Nat)
  | factor
  | power
  | atomExpression
  | argumentList
  | subscriptList
  | sliceOrTest
  | atom
  | stringList
  | parenthesized
  | listDisplay
  | braceDisplay
  | comprehension (expression : NodeId) (start : Nat)
  | parameterList (terminator : TokenKind) (allowHints : Bool)
  | name (missing : SyntaxFault)
  | simpleStatement
  | raiseStatement
  | expressionStatement
  | assigned
  | assignment (start : Nat) (left : NodeId)
  | importStatement
  | fromStatement
  | moduleName (allowRelative : Bool)
  | statementList
  | statement
  | asyncStatement
  | suite
  | decorated
  | functionDefinition (decorators : List NodeId) (asyncStart : Option Nat)
  | classDefinition (decorators : List NodeId)
  | ifStatement
  | whileStatement
  | forStatement (asyncStart : Option Nat)
  | tryStatement
  | withStatement (asyncStart : Option Nat)
  | module (length : Nat)
deriving DecidableEq

/-- What a parser does, apart from what it returns. -/
abbrev effect {α : Type} (p : Parser α) : Parser Unit := (fun _ => ()) <$> p

namespace Routine

/-- Whether a parser reads expressions or a simple statement. -/
def inLine : Routine → Bool
  | statementList | statement | asyncStatement | suite | decorated | functionDefinition ..
  | classDefinition .. | ifStatement | whileStatement | forStatement .. | tryStatement
  | withStatement .. | module .. => false
  | _ => true

/-- Whether a parser of expressions or a simple statement is called on its first word or bracket
only, which it takes without another look. -/
def opens : Routine → Bool
  | lambda | yieldExpression | parenthesized | listDisplay | braceDisplay | raiseStatement
  | importStatement | fromStatement => true
  | _ => false

/-- The parser, given those of the rules. -/
def run (call : Rules) : Routine → Parser Unit
  | testList => effect (Grammar.testList call)
  | testItems => effect (Grammar.testItems call)
  | targetList => effect (Grammar.targetList call)
  | testOrStar => effect (Grammar.testOrStar call)
  | starOrBitwiseOr => effect (Grammar.starOr call (Grammar.bitwiseOr call))
  | test => effect (Grammar.test call)
  | lambda => effect (Grammar.lambda call)
  | yieldExpression => effect (Grammar.yieldExpression call)
  | orTest => effect (Grammar.orTest call)
  | andTest => effect (Grammar.keywordChain .and .and (Grammar.notTest call))
  | notTest => effect (Grammar.notTest call)
  | comparison => effect (Grammar.comparison call)
  | bitwiseOr => effect (Grammar.bitwiseOr call)
  | binaryLevels levels => effect (Grammar.binaryLevels (Grammar.factor call) levels)
  | factor => effect (Grammar.factor call)
  | power => effect (Grammar.power call)
  | atomExpression => effect (Grammar.atomExpression call)
  | argumentList => effect (Grammar.argumentList call)
  | subscriptList => effect (Grammar.subscriptList call)
  | sliceOrTest => effect (Grammar.sliceOrTest call)
  | atom => effect (Grammar.atom call)
  | stringList => effect Grammar.stringList
  | parenthesized => effect (Grammar.parenthesized call)
  | listDisplay => effect (Grammar.listDisplay call)
  | braceDisplay => effect (Grammar.braceDisplay call)
  | comprehension expression start => effect (Grammar.comprehension call expression start)
  | parameterList terminator allowHints =>
    effect (Grammar.parameterList call terminator allowHints)
  | name missing => effect (Parser.name missing)
  | simpleStatement => effect (Grammar.simpleStatement call)
  | raiseStatement => effect (Grammar.raiseStatement call)
  | expressionStatement => effect (Grammar.expressionStatement call)
  | assigned => effect (Grammar.assigned call)
  | assignment start left => effect (Grammar.assignment call start left)
  | importStatement => effect Grammar.importStatement
  | fromStatement => effect Grammar.fromStatement
  | moduleName allowRelative => effect (Grammar.moduleName allowRelative)
  | statementList => effect (Grammar.statementList call)
  | statement => effect (Grammar.statement call)
  | asyncStatement => effect (Grammar.asyncStatement call)
  | suite => effect (Grammar.suite call)
  | decorated => effect (Grammar.decorated call)
  | functionDefinition decorators asyncStart =>
    effect (Grammar.functionDefinition call decorators asyncStart)
  | classDefinition decorators => effect (Grammar.classDefinition call decorators)
  | ifStatement => effect (Grammar.ifStatement call)
  | whileStatement => effect (Grammar.whileStatement call)
  | forStatement asyncStart => effect (Grammar.forStatement call asyncStart)
  | tryStatement => effect (Grammar.tryStatement call)
  | withStatement asyncStart => effect (Grammar.withStatement call asyncStart)
  | module length => effect (Grammar.module call length)

/-- Every parser keeps to a relation that all steps keep to, if the rules that it leads to do. -/
theorem keeps {R : Course} (hR : R.Blocks) {call : Rules} (hcall : ∀ rule, Keeps R (call rule))
    (r : Routine) : Keeps R (r.run call) := by
  have hline : RulesKeep R call := fun rule _ => hcall rule
  cases r with
  | testList => exact (Keeps.testList hline).map
  | testItems => exact (Keeps.testItems hline).map
  | targetList => exact (Keeps.targetList hline).map
  | testOrStar => exact (Keeps.testOrStar hline).map
  | starOrBitwiseOr => exact (Keeps.starOr hline (Keeps.bitwiseOr hline)).map
  | test => exact (Keeps.test hline).map
  | lambda => exact (Keeps.lambda hline).map
  | yieldExpression => exact (Keeps.yieldExpression hline).map
  | orTest => exact (Keeps.orTest hline).map
  | andTest => exact (Keeps.keywordChain .and .and (Keeps.notTest hline)).map
  | notTest => exact (Keeps.notTest hline).map
  | comparison => exact (Keeps.comparison hline).map
  | bitwiseOr => exact (Keeps.bitwiseOr hline).map
  | binaryLevels levels => exact (Keeps.binaryLevels (Keeps.factor hline) levels).map
  | factor => exact (Keeps.factor hline).map
  | power => exact (Keeps.power hline).map
  | atomExpression => exact (Keeps.atomExpression hline).map
  | argumentList => exact (Keeps.argumentList hline).map
  | subscriptList => exact (Keeps.subscriptList hline).map
  | sliceOrTest => exact (Keeps.sliceOrTest hline).map
  | atom => exact (Keeps.atom hline).map
  | stringList => exact Keeps.stringList.map
  | parenthesized => exact (Keeps.parenthesized hline).map
  | listDisplay => exact (Keeps.listDisplay hline).map
  | braceDisplay => exact (Keeps.braceDisplay hline).map
  | comprehension expression start => exact (Keeps.comprehension hline expression start).map
  | parameterList terminator allowHints =>
    exact (Keeps.parameterList hline terminator allowHints).map
  | name missing => exact (Keeps.name missing).map
  | simpleStatement => exact (Keeps.simpleStatement hline).map
  | raiseStatement => exact (Keeps.raiseStatement hline).map
  | expressionStatement => exact (Keeps.expressionStatement hline).map
  | assigned => exact (Keeps.assigned hline).map
  | assignment start left => exact (Keeps.assignment hline start left).map
  | importStatement => exact Keeps.importStatement.map
  | fromStatement => exact Keeps.fromStatement.map
  | moduleName allowRelative => exact (Keeps.moduleName allowRelative).map
  | statementList => exact (Keeps.statementList hline).map
  | statement => exact (Keeps.statement hR hcall).map
  | asyncStatement => exact (Keeps.asyncStatement hR hcall).map
  | suite => exact (Keeps.suite hR hcall).map
  | decorated => exact (Keeps.decorated hR hcall).map
  | functionDefinition decorators asyncStart =>
    exact (Keeps.functionDefinition hR hcall decorators asyncStart).map
  | classDefinition decorators => exact (Keeps.classDefinition hR hcall decorators).map
  | ifStatement => exact (Keeps.ifStatement hR hcall).map
  | whileStatement => exact (Keeps.whileStatement hR hcall).map
  | forStatement asyncStart => exact (Keeps.forStatement hR hcall asyncStart).map
  | tryStatement => exact (Keeps.tryStatement hR hcall).map
  | withStatement asyncStart => exact (Keeps.withStatement hR hcall asyncStart).map
  | module length => exact (Keeps.module hR hcall length).map

end Routine

end Grammar

/-! ## Later tokens -/

/-- The tokens before a parser. -/
def ParseState.tokens (s : ParseState) : List Token := s.current :: s.following

/-- A later state has only fewer of the tokens before it, still the end of the stream among them,
and is in as many nested expressions. -/
structure ParseState.Passes (s t : ParseState) : Prop where
  /-- Some tokens were taken, none of which ends the stream. -/
  taken : ∃ taken, s.tokens = taken ++ t.tokens ∧ ∀ u ∈ taken, u.kind ≠ .endOfStream
  /-- The nested expressions are as many. -/
  depth : t.depth = s.depth

namespace ParseState.Passes

variable {s t u : ParseState}

/-- Where no token is taken the tokens are the same. -/
theorem same (htokens : t.tokens = s.tokens) (hdepth : t.depth = s.depth) : s.Passes t :=
  ⟨⟨[], htokens.symm, nofun⟩, hdepth⟩

theorem refl (s : ParseState) : s.Passes s := same rfl rfl

theorem trans (hst : s.Passes t) (htu : t.Passes u) : s.Passes u := by
  obtain ⟨front, hfront, hend⟩ := hst.taken
  obtain ⟨back, hback, hend'⟩ := htu.taken
  refine ⟨⟨front ++ back, ?_, fun v hv => ?_⟩, htu.depth.trans hst.depth⟩
  · rw [hfront, hback, List.append_assoc]
  · exact (List.mem_append.1 hv).elim (hend v) (hend' v)

/-- A token may be taken. -/
theorem advanced (s : ParseState) : s.Passes (Parser.advanced s) := by
  unfold Parser.advanced
  split
  · exact refl s
  · rename_i next rest hfollowing
    split
    · exact refl s
    · rename_i hstream
      refine ⟨⟨[s.current], congrArg (s.current :: ·) hfollowing, fun u hu => ?_⟩, rfl⟩
      rwa [List.mem_singleton.1 hu]

/-- A fault may be noted. -/
theorem faultAt (s : ParseState) (range : TextRange) (f : SyntaxFault) :
    s.Passes ((Parser.faultAt range f).run s).2 := by
  show s.Passes (if _ then s else _)
  split
  · exact refl s
  · exact same rfl rfl

/-- The same may be done one level further in. -/
theorem deeper (h : ParseState.Passes { s with depth := s.depth + 1 } t) :
    s.Passes { t with depth := t.depth - 1 } :=
  ⟨h.taken, Nat.sub_eq_of_eq_add h.depth⟩

end ParseState.Passes

/-- Going on to later tokens is what all steps do. -/
def Course.passing : Course where
  Leads := ParseState.Passes
  Faulty _ := True
  Allows _ := True
  refl := .refl
  trans := .trans
  faulty _ h := h
  advanced := .advanced
  fault s f := .faultAt s s.current.range f
  faulty_fault _ _ := trivial
  add _ _ _ _ _ _ := .same rfl rfl
  allows _ _ := trivial
  title s _ := .trans (.advanced s) (.same rfl rfl)
  number s _ _ := .trans (.advanced s) (.same rfl rfl)
  widened _ := .same rfl rfl
  deeper := .deeper

theorem Course.passing_blocks : Course.passing.Blocks where
  allows _ := trivial
  unmatched s f _ := .trans (.advanced s) (.faultAt _ s.current.range f)

/-- Every parser goes on to later tokens, does not take the end of the stream, and leaves as many
nested expressions as it enters. -/
theorem Grammar.Routine.passes (r : Grammar.Routine) (fuel : Nat) (s : ParseState) :
    s.Passes ((r.run (Rule.parse fuel)).run s).2 :=
  r.keeps Course.passing_blocks
    (Rule.parse_keepBlocks Course.passing_blocks (fun _ => trivial) fuel) s

end TypeProbe
