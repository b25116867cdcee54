import TypeProbe.Proofs.Block.Passage

/-!
# Parsers on a line

The parts of statements that stay on their line, each with what is known of it (`LineParser`): what
it builds, the steps that it takes, and that it does not depend on what comes behind the line.
-/

open TypeProbe.Parser

namespace TypeProbe.LineParser

variable {length fuel : Nat}

/-! ## Tokens -/

/-- A fault may be noted. -/
theorem fault (f : SyntaxFault) :
    LineParser length fuel false (fault f) (fun _ => id) fun _ => [] where
  keeps _ _ := .fault f
  builds _ := .fault f
  alike _ _ _ _ _ := Alike.fault (k := pure) (l := pure) (.ret rfl trivial)
  shifts _ _ := rfl

/-- The rest of the line may be passed over. -/
theorem skipToEndOfLine :
    LineParser length fuel false skipToEndOfLine (fun _ => id) fun _ => [] where
  keeps _ _ := .skipToEndOfLine
  builds _ := .skipToEndOfLine
  alike _ _ _ _ _ := Alike.skipToEndOfLine (k := pure) (l := pure) fun _ _ _ => .ret rfl trivial
  shifts _ _ := rfl

/-- A token of a kind may be taken that ends no line. -/
theorem took {kind : TokenKind} (hkind : endsLine kind = false) :
    LineParser length fuel false (took kind) (fun _ => id) fun _ => [] where
  keeps _ _ := .took kind
  builds _ := .took kind
  alike _ _ _ _ _ := .tookAny (.inl hkind)
  shifts _ _ := rfl

/-- A keyword may be taken. -/
theorem tookKeyword (keyword : Keyword) :
    LineParser length fuel false (tookKeyword keyword) (fun _ => id) fun _ => [] where
  keeps _ _ := .tookKeyword keyword
  builds _ := .tookKeyword keyword
  alike _ _ _ _ _ := Alike.tookKeyword (k := pure) (l := pure) (fun _ _ _ => .ret rfl trivial)
    (.ret rfl trivial)
  shifts _ _ := rfl

/-- A token may be asked for that ends no line. -/
theorem expect {kind : TokenKind} (hkind : endsLine kind = false) (spelling : String) :
    LineParser length fuel false (expect kind spelling) (fun _ => id) fun _ => [] where
  keeps _ _ := .expect kind spelling
  builds _ := .expect kind spelling
  alike _ _ _ _ _ :=
    Alike.expect (k := pure) (l := pure) (.inl hkind) fun _ _ _ => .ret rfl trivial
  shifts _ _ := rfl

/-! ## Expressions -/

/-- A name may be read. -/
theorem name (missing : SyntaxFault) :
    LineParser length fuel false (name missing) (fun n => (· + n)) fun id => [id] where
  keeps _ _ := .name missing
  builds _ := .name missing
  alike _ _ _ _ _ := (Alike.name missing).weaken fun _ _ _ _ => trivial
  shifts _ _ := rfl

/-- An error node may stand before the next token. -/
theorem errorNode (category : ErrorCategory) :
    LineParser length fuel false (errorNode category none) (fun n => (· + n)) fun id => [id] where
  keeps _ hR s := Mends.errorNode category none s (hR s)
  builds _ := .errorNode category
  alike _ _ _ _ _ := (Alike.errorNode category none).weaken fun _ _ _ _ => trivial
  shifts _ _ := rfl

/-- A name may be read after a keyword. -/
theorem nameAfter (keyword : Keyword) (missing : SyntaxFault) :
    LineParser length fuel false (Grammar.nameAfter keyword missing)
      (fun n => Option.map (· + n)) Option.toList where
  keeps _ _ := .nameAfter keyword missing
  builds _ := (Builds.nameAfter keyword missing).congr fun id => Builds.built_eq id _
  alike _ _ _ _ _ := .nameAfter keyword missing
  shifts _ id := by cases id <;> rfl

/-- An expression may be read. -/
theorem test : LineParser length fuel false (Rule.parse fuel .test) (fun n => (· + n))
    fun id => [id] where
  keeps _ hR := Rule.parse_keep hR fuel .test rfl
  builds L := Rule.parse_builds length fuel .test L trivial
  alike F _ _ hw _ := (Alike.ofTest (RulesAlike.parse F (Nat.le_refl _) (Nat.le_refl _)) hw).weaken
    fun _ _ _ _ => trivial
  shifts _ _ := rfl

/-- Expressions may be read as one. -/
theorem testList : LineParser length fuel false (Grammar.testList (Rule.parse fuel))
    (fun n => (· + n)) fun id => [id] where
  keeps _ hR := .testList (Rule.parse_keep hR fuel)
  builds _ := .testList (Rule.parse_builds length fuel)
  alike F _ _ hw _ :=
    (Alike.testList (RulesAlike.parse F (Nat.le_refl _) (Nat.le_refl _)) hw).weaken
      fun _ _ _ _ => trivial
  shifts _ _ := rfl

/-- The target of a loop may be read. -/
theorem targetList : LineParser length fuel false (Grammar.targetList (Rule.parse fuel))
    (fun n => (· + n)) fun id => [id] where
  keeps _ hR := .targetList (Rule.parse_keep hR fuel)
  builds _ := .targetList (Rule.parse_builds length fuel)
  alike F _ _ hw _ :=
    (Alike.targetList (RulesAlike.parse F (Nat.le_refl _) (Nat.le_refl _)) (by omega)).weaken
      fun _ _ _ _ => trivial
  shifts _ _ := rfl

/-- The base classes of a class may be read. -/
theorem argumentList : LineParser length fuel false (Grammar.argumentList (Rule.parse fuel))
    (fun n => List.map (· + n)) id where
  keeps _ hR := .argumentList (Rule.parse_keep hR fuel)
  builds _ := .argumentList (Rule.parse_builds length fuel)
  alike F _ _ hw _ := .argumentList (RulesAlike.parse F (Nat.le_refl _) (Nat.le_refl _)) hw
  shifts _ _ := rfl

/-- The parameters of a function may be read. -/
theorem parameterList (terminator : TokenKind) (allowHints : Bool) :
    LineParser length fuel false
      (Grammar.parameterList (Rule.parse fuel) terminator allowHints)
      (fun n => List.map (· + n)) id where
  keeps _ hR := .parameterList (Rule.parse_keep hR fuel) terminator allowHints
  builds _ := .parameterList (Rule.parse_builds length fuel) terminator allowHints
  alike F _ _ hw _ :=
    .parameterList (RulesAlike.parse F (Nat.le_refl _) (Nat.le_refl _)) terminator allowHints hw
  shifts _ _ := rfl

/-- Managed values may be read. -/
theorem withItems :
    LineParser length fuel false
      (Parser.separated Parser.neverStops (Grammar.withItem (Rule.parse fuel)))
      (fun n => List.map (· + n)) id where
  keeps _ hR := .separated (.read fun _ => rfl) (.withItem (Rule.parse_keep hR fuel))
  builds _ := .separated (fun _ => .read fun _ => rfl)
    fun _ => .withItem (Rule.parse_builds length fuel)
  alike F _ _ hw _ := .items fun _ hq =>
    .withItem (RulesAlike.parse F (Nat.le_refl _) (Nat.le_refl _)) (by
      have := hq.1
      omega)
  shifts _ _ := rfl

/-- The simple statements of a line may be read, up to its end. -/
theorem statementLine :
    LineParser length fuel true (Grammar.statementLine (Rule.parse fuel)) (fun n => (· + n))
      fun id => [id] where
  keeps _ hR := by
    refine Keeps.currentStart.bind fun start =>
      (Keeps.lineStatement (Rule.parse_keep hR fuel)).bind fun first => ?_
    refine (Keeps.foldMany fun found => ?_).bind fun found => Keeps.node rfl rfl
    exact .ite .ret ((Keeps.lineStatement (Rule.parse_keep hR fuel)).bind fun next => .ret)
  builds L := by
    refine Builds.currentStart.bind fun start =>
      (Builds.lineStatement (Rule.parse_builds length fuel)).bind fun first => ?_
    refine Builds.bind (Builds.foldMany
      (I := fun found => pushed found.1.reverse (.mark start :: L)) (a := ([first.1], first.2))
      fun found => ?_) fun found => Builds.node rfl fun _ h => by cases h
    refine .ite (.ret rfl) ((Builds.lineStatement (Rule.parse_builds length fuel)).bind
      fun next => .ret ?_)
    simp [Builds.after]
  alike F _ _ hw hinside :=
    (Alike.statementLine (RulesAlike.parse F (Nat.le_refl _) (Nat.le_refl _)) (hinside rfl)
      hw).weaken fun _ _ _ _ => trivial
  shifts _ _ := rfl

end TypeProbe.LineParser
