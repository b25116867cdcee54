import TypeProbe.Proofs.Tree.Expressions
import TypeProbe.Tree.Parsed

/-!
# What the rules for statements build

Each rule for statements puts one node on the stack, or the nodes of a list. The one that does not
account for all it finds is the rule for functions: without a parameter list it lets the decorators
go (`missingParameters`).
-/

open TypeProbe.Parser

namespace TypeProbe

namespace Builds

variable {length : Nat} {L : List Item}

/-- A stack is settled by nodes put on it. -/
theorem settled_pushed (ids : List NodeId) (hL : Settled L) : Settled (pushed ids L) := by
  induction ids generalizing L with
  | nil => exact hL
  | cons id ids ih => exact ih settled_node

/-- A stack is settled by a node that may have been put on it. -/
theorem settled_built (id : Option NodeId) (hL : Settled L) : Settled (built id L) := by
  cases id with
  | none => exact hL
  | some id => exact settled_node

/-- Whether a simple statement ends may be seen. -/
theorem atStatementEnd : Builds length L Grammar.atStatementEnd fun _ => L := read fun _ => rfl

/-- A name may be read after a keyword. -/
theorem nameAfter (keyword : Keyword) (missing : SyntaxFault) :
    Builds length L (Grammar.nameAfter keyword missing) fun id => built id L :=
  (tookKeyword keyword).bind fun _ => ite (map (name missing)) (ret rfl)

/-! ## Imports -/

/-- The dots in front of the name of a module may be read. -/
theorem leadingDots : Builds length L Grammar.leadingDots fun _ => L := by
  refine (manyIdle fun L => ?_).bind fun dots => ret rfl
  refine (took .dot).bind fun one => ite (ret rfl) ?_
  exact (took .ellipsis).bind fun three => ite (ret rfl) (ret rfl)

/-- The name of a module may be read. -/
theorem moduleName (allowRelative : Bool) :
    Builds length L (Grammar.moduleName allowRelative) fun id => .node id :: L := by
  unfold Grammar.moduleName
  refine currentStart.bind fun start => ?_
  extract_lets rest
  have hrest : ∀ dots, Builds length (.mark start :: L) (rest dots) fun id => .node id :: L := by
    intro dots
    refine bind (foldMany (I := fun found => pushed found.1.reverse (.mark start :: L))
      (a := ([], true)) fun found => ?_) fun found => ?_
    · refine ite (ret rfl) ((consume .identifier).bind fun token => ?_)
      cases token with
      | none => exact ret rfl
      | some token =>
        refine nameNode.bind fun part => (took .dot).bind fun goesOn => ret ?_
        simp [after]
    · dsimp only
      exact ite ((fault _).bind fun _ => nodeBeyond rfl nofun) (nodeBeyond rfl nofun)
  exact ite (leadingDots.bind hrest) (hrest 0)

/-- One module of an import may be read. -/
theorem importItem : Builds length L Grammar.importItem fun id => .node id :: L := by
  refine currentStart.bind fun start => (moduleName false).bind fun source => ?_
  refine (nameAfter _ _).bind fun newName => node ?_ nofun
  simp [Form.children, built_eq]

/-- An import of modules may be read. -/
theorem importStatement : Builds length L Grammar.importStatement fun id => .node id :: L := by
  refine advanceFrom.bind fun token => ?_
  exact (separated (fun _ => read fun _ => rfl) fun _ => importItem).bind fun items =>
    node rfl nofun

/-- One symbol of an import may be read. -/
theorem importedSymbol : Builds length L Grammar.importedSymbol fun id => .node id :: L := by
  refine currentStart.bind fun start => (name _).bind fun title => ?_
  refine (nameAfter _ _).bind fun newName => node ?_ nofun
  simp [Form.children, built_eq]

/-- The symbols of an import may be read. -/
theorem importedSymbols : Builds length L Grammar.importedSymbols fun ids => pushed ids L := by
  refine bind (read fun _ => rfl) fun stop => ite ((fault _).bind fun _ => ret rfl) ?_
  exact separated (fun _ => read fun _ => rfl) fun _ => importedSymbol

/-- An import from a module may be read. -/
theorem fromStatement : Builds length L Grammar.fromStatement fun id => .node id :: L := by
  unfold Grammar.fromStatement
  refine advanceFrom.bind fun token => ?_
  extract_lets start
  refine (moduleName true).bind fun source => (tookKeyword .import).bind fun found => ite ?_ ?_
  · exact (fault _).bind fun _ => node rfl nofun
  refine (consumeOperator .multiply).bind fun star => ?_
  cases star with
  | some star => exact forget (forget (node rfl nofun))
  | none =>
    refine (took .openParenthesis).bind fun usesParens => importedSymbols.bind fun imports => ?_
    exact ite ((expect _ _).bind fun _ => node rfl nofun) (node rfl nofun)

/-! ## Simple statements -/

/-- A keyword may be a statement. -/
theorem keywordStatement {form : Form} (hchildren : form.children = [])
    (hplain : ∀ t, form ≠ .error .missingFunctionParameterList (some t)) :
    Builds length L (Grammar.keywordStatement form) fun id => .ofForm form id :: L :=
  advance.bind fun _ => tokenNode hchildren hplain

/-- Names with commas between them may be read. -/
theorem nameList : Builds length L Grammar.nameList fun ids => pushed ids L :=
  separated (fun _ => read fun _ => rfl) fun _ => name .identifier

section Rules

variable {call : Rules} (hcall : RulesBuild length call)
include hcall

/-- What is assigned may be read. -/
theorem assigned : Builds length L (Grammar.assigned call) fun id => .node id :: L :=
  bind (read fun _ => rfl) fun _ => ite (yieldExpression hcall) (testList hcall)

/-- The rest of an assignment may be read. -/
theorem assignment (start : Nat) (left : NodeId) :
    Builds length (.node left :: .mark start :: L) (Grammar.assignment call start left)
      fun id => .node id :: L := by
  unfold Grammar.assignment
  refine currentStart.bind fun rightStart => (assigned hcall).bind fun first => ?_
  refine (tookOperator .assign).bind fun goesOn => ?_
  extract_lets rest
  have hrest : ∀ id, Builds length (.node id :: .node left :: .mark start :: L) (rest id)
      fun id => .node id :: L := fun id => node rfl nofun
  have hnext := hcall (.assignment rightStart first) (.node left :: .mark start :: L) trivial
  exact ite (bind hnext hrest) (under [.node first] (hrest first))

/-- A statement that starts with an expression may be read. -/
theorem expressionStatement :
    Builds length L (Grammar.expressionStatement call) fun id => .node id :: L := by
  refine currentStart.bind fun start => (assigned hcall).bind fun left => ?_
  refine (took .colon).bind fun hinted => ite ?_ ?_
  · refine (ofTest hcall).bind fun hint => twice [.node hint, .node left] ?_
    refine bind (node rfl nofun) fun hinted => (tookOperator .assign).bind fun assigns => ite ?_ ?_
    · exact under [.node hinted] (ret rfl)
    · exact (assigned hcall).bind fun right => node rfl nofun
  refine (tookOperator .assign).bind fun assigns => ite (assignment hcall start left) ?_
  refine look.bind fun token => ?_
  cases token.operator? with
  | none => exact under [.node left] (ret rfl)
  | some op =>
    refine ite (under [.node left] (ret rfl)) (advancePast.bind fun _ => ?_)
    exact (assigned hcall).bind fun right => node rfl nofun

/-- A raising statement may be read. -/
theorem raiseStatement : Builds length L (Grammar.raiseStatement call) fun id => .node id :: L := by
  unfold Grammar.raiseStatement
  refine advanceFrom.bind fun token => ?_
  extract_lets start
  refine atStatementEnd.bind fun stop => ite (node rfl nofun) ?_
  refine (ofTest hcall).bind fun exception => (tookKeyword .from).bind fun hasCause => ?_
  extract_lets rest
  have hrest : ∀ cause, Builds length (built cause (.node exception :: .mark start :: L))
      (rest cause) fun id => .node id :: L := by
    refine fun cause => node ?_ nofun
    simp [Form.children, built_eq]
  exact ite (bind (map (ofTest hcall)) hrest) (hrest none)

/-- A statement without a block may be read. -/
theorem simpleStatement :
    Builds length L (Grammar.simpleStatement call) fun id => .node id :: L := by
  unfold Grammar.simpleStatement
  refine peek.bind fun token => ?_
  split
  · exact forget (keywordStatement rfl nofun)
  · exact forget (keywordStatement rfl nofun)
  · exact forget (keywordStatement rfl nofun)
  · refine advancePast.bind fun _ => atStatementEnd.bind fun stop => ?_
    extract_lets rest
    have hrest : ∀ id, Builds length (built id (.mark token.start :: L)) (rest id)
        fun id => .node id :: L := fun id => node (built_eq id _).symm nofun
    exact ite (hrest none) (bind (map (testList hcall)) hrest)
  · exact forget (raiseStatement hcall)
  · exact advancePast.bind fun _ => (testItems hcall).bind fun targets => node rfl nofun
  · exact advancePast.bind fun _ => nameList.bind fun names => node rfl nofun
  · exact advancePast.bind fun _ => nameList.bind fun names => node rfl nofun
  · exact forget importStatement
  · exact forget fromStatement
  · refine advancePast.bind fun _ => (ofTest hcall).bind fun condition => ?_
    refine (took .comma).bind fun hasMessage => ?_
    extract_lets rest
    have hrest : ∀ message,
        Builds length (built message (.node condition :: .mark token.start :: L))
        (rest message) fun id => .node id :: L := by
      refine fun message => node ?_ nofun
      simp [Form.children, built_eq]
    exact ite (bind (map (ofTest hcall)) hrest) (hrest none)
  · exact forget (expressionStatement hcall)

/-- A simple statement of a line may be read. -/
theorem lineStatement :
    Builds length L (Grammar.lineStatement call) fun found => .node found.1 :: L := by
  unfold Grammar.lineStatement
  refine (simpleStatement hcall).bind fun statement => ?_
  refine (took .semicolon).bind fun goesOn => ite ?_ ?_
  · exact bind (read fun _ => rfl) fun atEnd => ret rfl
  · refine bind (read fun _ => rfl) fun atEnd => ?_
    dsimp only
    exact ite ((fault _).bind fun _ => skipToEndOfLine.bind fun _ => ret rfl) (ret rfl)

/-- The simple statements of a line may be read. -/
theorem statementList : Builds length L (Grammar.statementList call) fun id => .node id :: L := by
  refine currentStart.bind fun start => (lineStatement hcall).bind fun first => ?_
  refine bind (foldMany (I := fun found => pushed found.1.reverse (.mark start :: L))
    (a := ([first.1], first.2)) fun found => ?_) fun found => ?_
  · refine ite (ret rfl) ((lineStatement hcall).bind fun next => ret ?_)
    simp [after]
  · refine bind (node rfl nofun) fun line => ?_
    exact (consumePast .newLine).bind fun _ => ret rfl

/-! ## Blocks -/

/-- A statement of a block, or a token that is none, may be read. -/
theorem blockItem (hL : Settled L) :
    Builds length L (Grammar.blockItem call) (after (fun id L => built id L) L) := by
  refine look.bind fun token => ?_
  split
  · exact ret rfl
  · refine advancePast.bind fun _ => ?_
    exact ite ((faultAt _ _).bind fun _ => ret rfl) (ret rfl)
  · exact (fault _).bind fun _ => advancePast.bind fun _ => ret rfl
  · exact advancePast.bind fun _ => ret rfl
  · exact (hcall .statement L hL).bind fun _ => ret rfl

omit hcall in
/-- What may be read in each round of a block are the statements of the block. -/
theorem manyItems {step : Parser (Option (Option NodeId))}
    (hstep : ∀ L, Settled L → Builds length L step (after (fun id L => built id L) L))
    (hL : Settled L) :
    Builds length L (Parser.many step) fun items => pushed (items.filterMap id) L := by
  have hpushed : ∀ (items : List (Option NodeId)) (L : List Item),
      items.foldl (fun L item => built item L) L = pushed (items.filterMap id) L := by
    intro items
    induction items with
    | nil => exact fun L => rfl
    | cons item items ih =>
      intro L
      cases item with
      | none => exact ih L
      | some item => exact ih (.node item :: L)
  have hmany : Builds length L (Parser.many step) (List.foldl (fun L item => built item L) L) := by
    refine many (P := Settled) (G := fun item L => built item L) (fun item L hL => ?_) hstep hL
    cases item with
    | none => exact hL
    | some item => exact settled_node
  exact hmany.congr fun items => hpushed items L

/-- A colon and a block may be read. -/
theorem suite (hL : Settled L) : Builds length L (Grammar.suite call) fun id => .node id :: L := by
  unfold Grammar.suite
  refine currentStart.bind fun start => (consume .colon).bind fun colon => ?_
  extract_lets rest
  have hrest : ∀ colonStop, Builds length (.mark colonStop :: .mark start :: L) (rest colonStop)
      fun id => .node id :: L := by
    intro colonStop
    refine (took .newLine).bind fun onLine => ite ?_ ?_
    · refine bind (read fun _ => rfl) fun empty => ?_
      extract_lets simple
      have hsimple : ∀ statements, Builds length
          (pushed statements (.mark colonStop :: .mark start :: L)) (simple statements)
          fun id => .node id :: L := fun statements => nodeAfter rfl nofun
      exact ite (hsimple []) (bind (map (statementList hcall)) hsimple)
    refine (took .indent).bind fun indented => ite ?_ ?_
    · exact (fault _).bind fun _ => nodeAfter rfl nofun
    have hsettled : Settled (.mark start :: L) := settled_mark.2 hL
    refine forget (bind (manyItems (fun _ => blockItem hcall) hsettled) fun items s h => ?_)
    have hmark : Holds length (pushed (Form.suite (items.filterMap id)).children
        (.mark start :: L)) s := h
    refine hmark.add ?_ nofun
    -- The suite stops where its last statement does.
    cases hlast : (items.filterMap id).getLast?.bind s.arena.range? with
    | none =>
      refine h.laid.mark_le ?_
      rw [pushed, put_eq]
      exact List.mem_append_right _ List.mem_cons_self
    | some r =>
      obtain ⟨last, -, hr⟩ := Option.bind_eq_some_iff.1 hlast
      exact (h.nested last r hr).1
  cases colon with
  | some colon => exact under [.mark colon.stop] (hrest colon.stop)
  | none => exact twice [] ((fault _).bind fun _ => hrest start)

/-- A block may be read after a keyword. -/
theorem suiteAfter (keyword : Keyword) (hL : Settled L) :
    Builds length L (Grammar.suiteAfter call keyword) fun id => built id L :=
  (tookKeyword keyword).bind fun _ => ite (map (suite hcall hL)) (ret rfl)

/-! ## Functions and classes -/

omit hcall in
/-- The last decorator put on a stack is its last node. -/
theorem topItem?_decorated {decorators : List NodeId} {i m : Nat} (hL : Settled L)
    (h : topItem? (decorated decorators (.mark m :: L)) = some (.decorator i)) :
    i ∈ decorators := by
  rcases List.eq_nil_or_concat decorators with rfl | ⟨ds, d, rfl⟩
  · exact absurd h (hL i)
  · rw [List.concat_eq_append, decorated, put_append] at h
    cases h
    simp

omit hcall in
/-- An error node may be added around the name of a function. The decorators in front of it are let
go; the arena shows it, since the name was the next node after the last of them. -/
theorem missingParameters {s : ParseState} {t start m : Nat} {decorators : List NodeId}
    (h : Holds length (.node t :: .mark start :: decorated decorators (.mark m :: L)) s)
    (hL : Settled L)
    (hnext : ∀ i, topItem? (decorated decorators (.mark m :: L)) = some (.decorator i) ↔
      i + 1 = t ∧ s.arena.kind? i = some .decorator) :
    Holds length
      (.node ((Parser.errorNode .missingFunctionParameterList (some t)).run s).1 :: L)
      ((Parser.errorNode .missingFunctionParameterList (some t)).run s).2 := by
  obtain ⟨r, hr, hstop⟩ := h.exists_range [] rfl
  have hstart : (((some t).bind s.arena.range?).map (·.start)).getD s.current.start = r.start := by
    simp [hr]
  have hstop' : max s.previousStop r.start ≤ s.current.start :=
    Nat.max_le.2 ⟨h.cursor.previous, Nat.le_trans r.start_le_stop hstop⟩
  let form : Form := .error .missingFunctionParameterList (some t)
  have hheld : held (.node t :: .mark start :: decorated decorators (.mark m :: L)) =
      form.children.reverse ++ (decorators.reverse ++ held L) := by
    rw [held_node, held_mark, decorated, held_put fun _ => rfl]
    rfl
  have hmem : ∀ item ∈ L, item ∈ decorated decorators (.mark m :: L) := fun item hitem => by
    rw [decorated, put_eq]
    exact List.mem_append_right _ (List.mem_cons_of_mem _ hitem)
  have hlaid : Laid s.arena L r.start := by
    obtain ⟨r', hr', -, hrest⟩ := h.laid
    rw [Option.some.inj (hr'.symm.trans hr), decorated, put_eq] at hrest
    exact (hrest.tail.below _).tail
  have harranged : Arranged s.arena r.start form.children s.current.start :=
    ⟨r, hr, Nat.le_refl _, hstop⟩
  have hlow : r.start ≤ s.current.start := Nat.le_trans r.start_le_stop hstop
  suffices hadd : Holds length (.ofForm form s.arena.size :: L)
      { s with arena := (s.arena.add r.start (max s.previousStop r.start) form).2 } by
    rw [← hstart] at hadd
    exact hadd
  refine ⟨⟨h.cursor.ordered, h.cursor.previous, h.cursor.ends⟩,
    h.owned.add hheld (fun item hitem => ?_) (fun i hi => ?_) (fun i hi => ?_),
    h.nested.add harranged hlow hstop',
    .add harranged (Nat.le_refl _) (Nat.le_refl _) hlow hstop' hlaid fun id hid => ?_, h.unwidened⟩
  · exact List.mem_cons_of_mem _ (List.mem_cons_of_mem _ (hmem item hitem))
  · have hdecorator : ∀ d ∈ decorators, s.arena.kind? d = some .decorator := fun d hd => by
      refine h.owned.fits (.decorator d) (List.mem_cons_of_mem _ (List.mem_cons_of_mem _ ?_))
      rw [decorated, put_eq, List.mem_append, List.mem_reverse]
      exact .inl (List.mem_map_of_mem hd)
    refine ⟨hdecorator i (List.mem_reverse.1 hi), ?_⟩
    rcases List.eq_nil_or_concat decorators with rfl | ⟨ds, d, rfl⟩
    · cases hi
    · rw [List.concat_eq_append, decorated, put_append] at hnext
      obtain ⟨hd, hkind⟩ := (hnext d).1 rfl
      exact ⟨d, hkind, by rw [hd]⟩
  · obtain ⟨hkind, hform⟩ := hi
    have ht : t = i + 1 := by
      injection hform with _ hchild
      injection hchild
    exact List.mem_reverse.2 (topItem?_decorated hL ((hnext i).2 ⟨ht.symm, hkind⟩))
  · refine (h.owned.held_free id (hheld ▸ ?_)).1
    exact List.mem_append_right _ (List.mem_append_right _ hid)

/-- A function may be read after its keyword. -/
theorem functionFrom (start m : Nat) (decorators : List NodeId) (isAsync : Bool) (hL : Settled L) :
    Builds length (.mark start :: decorated decorators (.mark m :: L))
      (Grammar.functionFrom call start decorators isAsync) fun id => .node id :: L := by
  intro s h
  -- The name becomes the next node after those that are there.
  obtain ⟨_, _, token, value, hid, harena⟩ := run_name .functionName s
  have hname := name .functionName s h
  have hnext : ∀ i, topItem? (decorated decorators (.mark m :: L)) = some (.decorator i) ↔
      i + 1 = ((Parser.name .functionName).run s).1 ∧
        ((Parser.name .functionName).run s).2.arena.kind? i = some .decorator := by
    intro i
    rw [hid, harena, Arena.kind?_add]
    refine (h.owned.top i).trans (and_congr_right fun hi => ?_)
    rw [if_neg (hi ▸ Nat.ne_of_lt (Nat.lt_succ_self i))]
  unfold Grammar.functionFrom
  refine run_bind (Q := fun id => .node id :: L) fun title s₁ hs₁ => ?_
  rw [hs₁] at hname hnext
  refine run_bind (Q := fun id => .node id :: L) fun found s₂ hs₂ => ?_
  have htook := took .openParenthesis s₁ hname
  have hkinds := arena_took .openParenthesis s₁
  rw [hs₂] at htook hkinds
  rw [← hkinds] at hnext
  cases found with
  | false =>
    refine run_bind (Q := fun id => .node id :: L) fun _ s₃ hs₃ => ?_
    have hfault := fault (.spelling "(") s₂ htook
    have hkinds := arena_fault (.spelling "(") s₂
    rw [hs₃] at hfault hkinds
    rw [← hkinds] at hnext
    refine run_bind (Q := fun id => .node id :: L) fun error s₄ hs₄ => ?_
    have herror := missingParameters hfault hL hnext
    rw [hs₄] at herror
    exact skipToEndOfLine.bind (fun _ => ret rfl) s₄ herror
  | true =>
    suffices hrest :
        Builds length (.node title :: .mark start :: decorated decorators (.mark m :: L))
        _ fun id => .node id :: L from hrest s₂ htook
    refine (parameterList hcall .closeParenthesis true).bind fun parameters => ?_
    refine (expect _ _).bind fun _ => (took .arrow).bind fun arrow => ?_
    extract_lets rest
    have hrest : ∀ hint, Builds length (built hint (pushed parameters
        (.node title :: .mark start :: decorated decorators (.mark m :: L)))) (rest hint)
        fun id => .node id :: L := by
      intro hint
      have hsettled := settled_built hint (settled_pushed parameters
        (@settled_node title (.mark start :: decorated decorators (.mark m :: L))))
      refine (suite hcall hsettled).bind fun body => ?_
      refine nodeDecorated (n := m) decorators
        (title :: (parameters ++ hint.toList ++ [body])) ?_ rfl
        nofun
      simp [built_eq]
    exact ite (bind (map (ofTest hcall)) hrest) (hrest none)

/-- A function may be read from its keyword on. -/
theorem functionDefinition (m : Nat) (decorators : List NodeId) (asyncStart : Option Nat)
    (hL : Settled L) :
    Builds length (after (fun n L => .mark n :: L) (decorated decorators (.mark m :: L)) asyncStart)
      (Grammar.functionDefinition call decorators asyncStart) fun id => .node id :: L := by
  cases asyncStart with
  | none => exact advanceFrom.bind fun keyword => functionFrom hcall _ m decorators false hL
  | some start => exact advancePast.bind fun _ => functionFrom hcall start m decorators true hL

/-- A class may be read. -/
theorem classDefinition (m : Nat) (decorators : List NodeId) :
    Builds length (decorated decorators (.mark m :: L)) (Grammar.classDefinition call decorators)
      fun id => .node id :: L := by
  unfold Grammar.classDefinition
  refine advanceFrom.bind fun keyword => ?_
  extract_lets start
  refine (name .className).bind fun title => (took .openParenthesis).bind fun found => ?_
  extract_lets rest
  have hrest : ∀ arguments, Builds length (pushed arguments
      (.node title :: .mark keyword.start :: decorated decorators (.mark m :: L))) (rest arguments)
      fun id => .node id :: L := by
    intro arguments
    refine (suite hcall (settled_pushed arguments settled_node)).bind fun body => ?_
    refine nodeDecorated (n := m) decorators (title :: (arguments ++ [body])) ?_ rfl nofun
    simp [start]
  refine ite ?_ (hrest [])
  exact (argumentList hcall).bind fun arguments => (expect _ _).bind fun _ => hrest arguments

/-- A decorator may be read. -/
theorem decorator : Builds length L (Grammar.decorator call)
    (after (fun id L => .decorator id :: L) L) := by
  unfold Grammar.decorator
  refine (consumeOperator .matrixMultiply).bind fun mark => ?_
  cases mark with
  | none => exact ret rfl
  | some mark =>
    refine forget (bind (read fun _ => rfl) fun empty => ?_)
    extract_lets rest
    have hrest : ∀ id, Builds length (.node id :: .mark mark.start :: L) (rest id)
        (after (fun id L => .decorator id :: L) L) := by
      intro expression
      refine bind (node rfl nofun) fun decorator => bind (read fun _ => rfl) fun atEnd => ?_
      dsimp only
      refine ite ((fault _).bind fun _ => skipToEndOfLine.bind fun _ => ?_) ?_
      · exact (consumePast .newLine).bind fun _ => ret rfl
      · exact (consumePast .newLine).bind fun _ => ret rfl
    refine ite ((fault _).bind fun _ => ?_) (bind (ofTest hcall) hrest)
    exact bind (errorNode _) hrest

/-- Decorators and what they stand before may be read. -/
theorem decorated (hL : Settled L) : Builds length L (Grammar.decorated call)
    fun id => .node id :: L := by
  refine fromMark fun m => ?_
  refine bind
    (many (P := fun _ => True) (fun _ _ _ => trivial) (fun _ _ => decorator hcall) trivial)
    fun decorators => ?_
  refine look.bind fun token => bind (read fun _ => rfl) fun second => ?_
  refine ite (functionDefinition hcall m decorators none hL) ?_
  refine ite (classDefinition hcall m decorators) ?_
  refine ite (advanceFrom.bind fun token => ?_) ((fault _).bind fun _ s h => ?_)
  · exact functionDefinition hcall m decorators (some token.start) hL
  · -- The decorators stand alone, from where the first of them starts.
    have hstart : m ≤ ((decorators.head?.bind s.arena.range?).map (·.start)).getD s.current.start ∧
        ((decorators.head?.bind s.arena.range?).map (·.start)).getD s.current.start ≤
          s.current.start := by
      obtain ⟨lo, hlaid, harranged⟩ := h.laid.of_put .decorator fun _ _ _ h => h
      cases decorators with
      | nil => exact ⟨Nat.le_trans hlaid.1 harranged.le, Nat.le_refl _⟩
      | cons d ds =>
        obtain ⟨r, hr, hlo, hhi⟩ := harranged.bounds List.mem_cons_self
        have hrange : ((some d).bind s.arena.range?).map (·.start) = some r.start := by simp [hr]
        rw [List.head?_cons, hrange]
        exact ⟨Nat.le_trans hlaid.1 hlo, Nat.le_trans r.start_le_stop hhi⟩
    have hchildren : (Form.statementList decorators).children = decorators ++ [] :=
      (List.append_nil decorators).symm
    exact h.addAbove decorators [] hchildren hstart.1 hstart.2 hstart.2 nofun

/-! ## Statements with blocks -/

/-- A conditional statement may be read. -/
theorem ifStatement : Builds length L (Grammar.ifStatement call) fun id => .node id :: L := by
  unfold Grammar.ifStatement
  refine advanceFrom.bind fun keyword => ?_
  extract_lets start
  refine (ofTest hcall).bind fun condition => (suite hcall settled_node).bind fun body => ?_
  refine bind (read fun _ => rfl) fun goesOn => ?_
  extract_lets rest
  have hrest : ∀ other, Builds length (built other (.node body :: .node condition ::
      .mark keyword.start :: L)) (rest other) fun id => .node id :: L := by
    refine fun other => nodeOver ?_ nofun
    simp [Form.children, built_eq, start]
  have hnext : Builds length (.node body :: .node condition :: .mark keyword.start :: L)
      (some <$> call .ifStatement) fun other => built other (.node body :: .node condition ::
        .mark keyword.start :: L) := map (hcall .ifStatement _ trivial)
  refine ite (bind hnext hrest) ?_
  exact bind (suiteAfter hcall .else settled_node) hrest

/-- A loop under a condition may be read. -/
theorem whileStatement : Builds length L (Grammar.whileStatement call) fun id => .node id :: L := by
  refine advanceFrom.bind fun keyword => (ofTest hcall).bind fun condition => ?_
  refine (suite hcall settled_node).bind fun body => ?_
  refine (suiteAfter hcall .else settled_node).bind fun other => nodeOver ?_ nofun
  simp [Form.children, built_eq]

/-- A loop over the items of a value may be read. -/
theorem forStatement (asyncStart : Option Nat) :
    Builds length (after (fun n L => .mark n :: L) L asyncStart)
      (Grammar.forStatement call asyncStart) fun id => .node id :: L := by
  -- With or without `async`, the offset at which the loop starts is on the stack.
  suffices hrest : ∀ start, Builds length (.mark start :: L) (do
      let target ← Grammar.targetList call
      let iterable ←
        if ← Parser.tookKeyword .in then Grammar.testList call
        else do
          Parser.fault (.spelling "in")
          Parser.errorNode .missingIn none
      let body ← Grammar.suite call
      let elseSuite ← Grammar.suiteAfter call .else
      Parser.addNode start start (.forLoop asyncStart.isSome target iterable body elseSuite))
      fun id => .node id :: L by
    cases asyncStart with
    | none => exact advanceFrom.bind fun keyword => hrest keyword.start
    | some start => exact advancePast.bind fun _ => hrest start
  intro start
  refine (targetList hcall).bind fun target => (tookKeyword .in).bind fun found => ?_
  extract_lets rest
  have hrest : ∀ iterable, Builds length (.node iterable :: .node target :: .mark start :: L)
      (rest iterable) fun id => .node id :: L := by
    refine fun iterable => (suite hcall settled_node).bind fun body => ?_
    refine (suiteAfter hcall .else settled_node).bind fun other => nodeOver ?_ nofun
    simp [Form.children, built_eq]
  refine ite (bind (testList hcall) hrest) ((fault _).bind fun _ => ?_)
  exact (errorNode .missingIn).bind hrest

/-- What is done on some exceptions may be read. -/
theorem exceptClause (hL : Settled L) : Builds length L (Grammar.exceptClause call)
    (after (fun id L => .node id :: L) L) := by
  unfold Grammar.exceptClause
  refine (consumeKeyword .except).bind fun token => ?_
  cases token with
  | none => exact ret rfl
  | some token =>
    refine bind (read fun _ => rfl) fun bare => ?_
    extract_lets rest
    have hrest : ∀ names : Option NodeId × Option NodeId,
        Builds length
          (built names.2 (built names.1 (.mark token.stop :: .mark token.start :: L)))
          (rest names) (after (fun id L => .node id :: L) L) := by
      intro names
      have hsettled := settled_built names.2 (settled_built names.1
        (settled_mark (n := token.stop) |>.2 (settled_mark (n := token.start) |>.2 hL)))
      refine (suite hcall hsettled).bind fun body => ?_
      refine bind (nodeAfter ?_ nofun) fun _ => ret rfl
      simp [Form.children, built_eq]
    refine ite (hrest (none, none)) ((ofTest hcall).bind fun expression => ?_)
    exact (nameAfter _ _).bind fun title => hrest (some expression, title)

/-- A block that may fail and what is done then may be read. -/
theorem tryStatement (hL : Settled L) : Builds length L (Grammar.tryStatement call)
    fun id => .node id :: L := by
  unfold Grammar.tryStatement
  refine advanceFrom.bind fun keyword => ?_
  extract_lets start
  refine (suite hcall (settled_mark.2 hL)).bind fun body => ?_
  refine bind (many (P := Settled) (fun _ _ _ => settled_node) (fun _ => exceptClause hcall)
    settled_node) fun clauses => ?_
  extract_lets rest
  have hrest : ∀ other, Builds length (built other (pushed clauses (.node body ::
      .mark keyword.start :: L))) (rest other) fun id => .node id :: L := by
    intro other
    have hsettled := settled_built other (settled_pushed clauses
      (@settled_node body (.mark keyword.start :: L)))
    refine (suiteAfter hcall .finally hsettled).bind fun final => ?_
    dsimp only
    have hnode : Builds length (built final (built other (pushed clauses (.node body ::
        .mark keyword.start :: L)))) (Parser.addNode start start
        (.tryExcept body clauses other final)) fun id => .node id :: L := by
      refine nodeOver ?_ nofun
      simp [Form.children, built_eq, start]
    exact ite ((fault _).bind fun _ => hnode) hnode
  exact ite (hrest none) (bind (suiteAfter hcall .else (settled_pushed clauses settled_node)) hrest)

/-- A managed value may be read. -/
theorem withItem : Builds length L (Grammar.withItem call) fun id => .node id :: L := by
  unfold Grammar.withItem
  refine currentStart.bind fun start => (ofTest hcall).bind fun expression => ?_
  refine (tookKeyword .as).bind fun bound => ?_
  extract_lets rest
  have hrest : ∀ target, Builds length (built target (.node expression :: .mark start :: L))
      (rest target) fun id => .node id :: L := by
    refine fun target => node ?_ nofun
    simp [Form.children, built_eq]
  exact ite (bind (map (targetList hcall)) hrest) (hrest none)

/-- A block with managed values may be read. -/
theorem withStatement (asyncStart : Option Nat) (hL : Settled L) :
    Builds length (after (fun n L => .mark n :: L) L asyncStart)
      (Grammar.withStatement call asyncStart) fun id => .node id :: L := by
  suffices hrest : ∀ start, Builds length (.mark start :: L) (do
      let items ← Parser.separated Parser.neverStops (Grammar.withItem call)
      let body ← Grammar.suite call
      Parser.addNode start start (.withBlock asyncStart.isSome items body))
      fun id => .node id :: L by
    cases asyncStart with
    | none => exact advanceFrom.bind fun keyword => hrest keyword.start
    | some start => exact advancePast.bind fun _ => hrest start
  intro start
  refine (separated (fun _ => read fun _ => rfl) fun _ => withItem hcall).bind fun items => ?_
  refine (suite hcall (settled_pushed items (settled_mark.2 hL))).bind fun body => nodeOver ?_ nofun
  simp [Form.children]

/-- An asynchronous statement may be read. -/
theorem asyncStatement (hL : Settled L) : Builds length L (Grammar.asyncStatement call)
    fun id => .node id :: L := by
  unfold Grammar.asyncStatement
  refine bind (read fun _ => rfl) fun second => ?_
  split
  · refine fromMark fun m => advanceFrom.bind fun token => ?_
    exact functionDefinition hcall m [] (some token.start) hL
  · exact advanceFrom.bind fun token => forStatement hcall (some token.start)
  · exact advanceFrom.bind fun token => withStatement hcall (some token.start) hL
  · exact (fault _).bind fun _ => statementList hcall

/-- A statement may be read. -/
theorem statement (hL : Settled L) : Builds length L (Grammar.statement call)
    fun id => .node id :: L := by
  unfold Grammar.statement
  refine look.bind fun token => ?_
  split
  · exact fromMark fun m => functionDefinition hcall m [] none hL
  · exact fromMark fun m => classDefinition hcall m []
  · exact ifStatement hcall
  · exact whileStatement hcall
  · exact forStatement hcall none
  · exact tryStatement hcall hL
  · exact withStatement hcall none hL
  · exact asyncStatement hcall hL
  · exact decorated hcall hL
  · exact statementList hcall

/-- A statement of a text, or a token that is none, may be read. -/
theorem moduleItem (hL : Settled L) :
    Builds length L (Grammar.moduleItem call) (after (fun id L => built id L) L) := by
  refine look.bind fun token => ?_
  split
  · exact ret rfl
  · exact advancePast.bind fun _ => ret rfl
  · exact (fault _).bind fun _ => advancePast.bind fun _ => ret rfl
  · exact (fault _).bind fun _ => advancePast.bind fun _ => ret rfl
  · exact (hcall .statement L hL).bind fun _ => ret rfl

end Rules

end Builds

/-! ## All rules -/

/-- Each rule builds what it should, if the rules that it leads to do. -/
theorem Rule.body_builds {length : Nat} {call : Rules} (hcall : RulesBuild length call) :
    RulesBuild length fun rule => rule.body call := by
  intro rule L hL
  cases rule with
  | test => exact Builds.test hcall
  | lambda => exact Builds.lambda hcall
  | notTest => exact Builds.notTest hcall
  | factor => exact Builds.factor hcall
  | atomExpression => exact Builds.atomExpression hcall
  | statement => exact Builds.statement hcall hL
  | ifStatement => exact Builds.ifStatement hcall
  | assignment start left => exact Builds.assignment hcall start left

/-- All rules build what they should, however deep they call each other. -/
theorem Rule.parse_builds (length fuel : Nat) : RulesBuild length (Rule.parse fuel) := by
  induction fuel with
  | succ fuel ih => exact Rule.body_builds ih
  | zero =>
    intro rule L hL
    cases rule with
    | assignment start left =>
      refine Builds.under [.node left] (Builds.errorAround ?_)
      nofun
    | _ => exact Builds.errorNode _

end TypeProbe
