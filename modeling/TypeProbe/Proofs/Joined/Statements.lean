import TypeProbe.Proofs.Joined.Expressions

/-!
# Statements side by side

The rules for simple statements go side by side on a line that both parsers see
(`Alike.statementLine`). Those for statements with blocks, and for the ends of lines, do so where
both parsers see the same tokens up to the end of the stream. From that, all rules do, however deep
they call each other (`RulesAlike.parse`).
-/

open TypeProbe.Parser

namespace TypeProbe

/-- The simple statements of a line, without its end. -/
def Grammar.statementLine (call : Rules) : Parser NodeId := do
  let start ← currentStart
  let first ← lineStatement call
  let (statements, _) ← foldMany ([first.1], first.2) fun (statements, goesOn) => do
    if !goesOn then return none
    let (statement, goesOn) ← lineStatement call
    return some (statement :: statements, goesOn)
  node start (.statementList statements.reverse)

/-- The statements of a line and its end are read one after the other. -/
theorem Grammar.statementList_eq (call : Rules) : Grammar.statementList call = do
    let line ← Grammar.statementLine call
    let _ ← consume .newLine
    return line := rfl

/-- Two parsers build the same node and take a token at least. -/
abbrev AlikeStatement (F : Frame) (p : Spot) (x x' : Parser NodeId) : Prop :=
  Alike F p (· + F.ids) x x' fun id q => id < q.nodes ∧ q.after.length < p.after.length

/-- Two parsers build the same node or none and take a token, unless they are done. -/
abbrev AlikeItem (F : Frame) (p : Spot) (x x' : Parser (Option (Option NodeId))) : Prop :=
  Alike F p (Option.map (Option.map (· + F.ids))) x x' fun item q =>
    item.isSome = true → q.after.length < p.after.length

namespace Alike

variable {F : Frame} {p q : Spot} {w : Nat}

/-- A name may be read after a keyword. -/
theorem nameAfter (keyword : Keyword) (missing : SyntaxFault) :
    AlikeOption F p (Grammar.nameAfter keyword missing) (Grammar.nameAfter keyword missing) :=
  tookKeyword (fun _ _ _ => mapSome (name missing)) (ret rfl trivial)

/-! ## Imports -/

/-- The dots in front of the name of a module may be read. -/
theorem leadingDots : Alike F p id Grammar.leadingDots Grammar.leadingDots fun _ _ => True := by
  refine bind (many (g := id) fun q hq => ?_) fun dots _ _ _ => ret (by simp) trivial
  refine took (.inl rfl) (fun _ u hu => ret rfl fun _ => hu.lt) ?_
  exact took (.inl rfl) (fun _ u hu => ret rfl fun _ => hu.lt) (ret rfl nofun)

/-- The name of a module may be read. -/
theorem moduleName (allowRelative : Bool) :
    AlikeNode F p (Grammar.moduleName allowRelative) (Grammar.moduleName allowRelative) := by
  unfold Grammar.moduleName
  refine currentStart ?_
  extract_lets rest rest'
  have hrest : ∀ dots q, AlikeNode F q (rest dots) (rest' dots) := by
    intro dots q
    refine bind (foldMany (g := Prod.map (List.map (· + F.ids)) id) (a := ([], true))
      (I := fun _ _ => True) (J := fun _ _ => True) trivial fun found u hu _ => ?_)
      fun found u hu _ => ?_
    · obtain ⟨parts, goesOn⟩ := found
      refine ite (fun _ => ret rfl trivial) fun _ => ?_
      refine consume (.inl rfl) (fun _ v hv => ?_) (ret rfl trivial)
      have hlt := hv.lt
      refine nameNode.bind fun part r hr _ => (tookAny (.inl rfl)).bind fun dot t ht _ => ?_
      exact ret rfl ⟨trivial, by omega⟩
    · obtain ⟨parts, goesOn⟩ := found
      have hnode : ∀ v, AlikeNode F v
          (do
            let stop := max (← Parser.previousStop) p.token.start
            Parser.addNode p.token.start stop
              (.moduleName dots parts.reverse (goesOn && !parts.isEmpty)))
          (do
            let stop := max (← Parser.previousStop) (p.token.start + F.bytes)
            Parser.addNode (p.token.start + F.bytes) stop
              (.moduleName dots (parts.map (· + F.ids)).reverse
                (goesOn && !(parts.map (· + F.ids)).isEmpty))) := by
        refine fun v => nodeBeyond rfl ?_
        simp [Form.shift, List.map_reverse]
      refine iteOf ?_ (fun _ => fault (hnode u)) fun _ => hnode u
      simp
  exact ite (fun _ => leadingDots.bind fun dots q _ _ => hrest dots q) fun _ => hrest 0 p

/-- One module of an import may be read. -/
theorem importItem : AlikeNode F p Grammar.importItem Grammar.importItem := by
  refine currentStart ((moduleName false).bind fun source _ _ _ => ?_)
  exact (nameAfter _ _).bind fun newName _ _ _ => node rfl rfl

/-- Items may be read, each after a comma but the first. -/
theorem items {item item' : Parser NodeId}
    (hitem : ∀ q, p.Before q → AlikeNode F q item item') :
    AlikeNodes F p (Parser.separated Parser.neverStops item)
      (Parser.separated Parser.neverStops item') :=
  separated (f := fun _ => false) (fun _ => rfl) (fun _ => rfl) fun q hq _ => hitem q hq

/-- An import of modules may be read. -/
theorem importStatement (hend : endsLine p.token.kind = false) :
    AlikeNode F p Grammar.importStatement Grammar.importStatement :=
  advance (Frame.not_isEnd hend) fun _ _ => (items fun _ _ => importItem).bind fun _ _ _ _ =>
    node rfl rfl

/-- One symbol of an import may be read. -/
theorem importedSymbol : AlikeNode F p Grammar.importedSymbol Grammar.importedSymbol := by
  refine currentStart ((name _).bind fun title _ _ _ => ?_)
  exact (nameAfter _ _).bind fun newName _ _ _ => node rfl rfl

/-- The symbols of an import may be read. -/
theorem importedSymbols : AlikeNodes F p Grammar.importedSymbols Grammar.importedSymbols := by
  refine look (f := fun t => t.kind != .identifier) (fun _ => rfl) (fun _ => rfl)
    (ite (fun _ => fault (ret rfl trivial)) fun _ => ?_)
  exact separated (f := fun t => t.kind != .identifier) (fun _ => rfl) (fun _ => rfl)
    fun _ _ _ => importedSymbol

/-- An import from a module may be read. -/
theorem fromStatement (hend : endsLine p.token.kind = false) :
    AlikeNode F p Grammar.fromStatement Grammar.fromStatement := by
  refine advance (Frame.not_isEnd hend) fun q hq => (moduleName true).bind fun source _ _ _ => ?_
  refine tookKeyword (fun _ _ _ => ?_) (fault (node rfl rfl))
  refine consumeOperator (fun _ _ _ => node rfl rfl) fun _ => ?_
  refine (tookAny (.inl rfl)).bind fun usesParens _ _ _ => ?_
  refine importedSymbols.bind fun imports _ _ _ => ?_
  exact ite (fun _ => expect (.inl rfl) fun _ _ _ => node rfl rfl) fun _ => node rfl rfl

/-! ## Simple statements -/

/-- A keyword may be a statement. -/
theorem keywordStatement {form : Form} (hend : endsLine p.token.kind = false)
    (hform : form = form.shift F.bytes F.ids) :
    AlikeNode F p (Grammar.keywordStatement form) (Grammar.keywordStatement form) :=
  advance (Frame.not_isEnd hend) fun _ _ => tokenNode hform

/-- Names with commas between them may be read. -/
theorem nameList : AlikeNodes F p Grammar.nameList Grammar.nameList :=
  items fun _ _ => name .identifier

section Rules

variable {call call' : Rules} (hcall : RulesAlike F w call call')
include hcall

/-- What is assigned may be read. -/
theorem assigned (hw : 4 * p.after.length + 3 < w) :
    AlikeNode F p (Grammar.assigned call) (Grammar.assigned call') := by
  refine atKeyword (ite (fun hyield => ?_) fun _ => testList hcall hw)
  exact yieldExpression hcall (endsLine_of_keyword? (eq_of_beq hyield)) (by omega)

/-- The rest of an assignment may be read. -/
theorem assignment {start : Nat} {left : NodeId} (hw : 4 * p.after.length + 3 < w) :
    AlikeNode F p (Grammar.assignment call start left)
      (Grammar.assignment call' (start + F.bytes) (left + F.ids)) := by
  refine currentStart ((assigned hcall hw).bind fun first q hq _ => ?_)
  refine tookOperator (fun _ u hu => ?_) (node rfl rfl)
  have hlt := hu.lt
  have hnext := hcall (.assignment p.token.start first) u (by simp only [Rule.rank]; omega) trivial
  exact hnext.bind fun right _ _ _ => node rfl rfl

/-- A statement that starts with an expression may be read. -/
theorem expressionStatement (hw : 4 * p.after.length + 3 < w) :
    AlikeNode F p (Grammar.expressionStatement call) (Grammar.expressionStatement call') := by
  refine currentStart ((assigned hcall hw).bind fun left q hq hleft => ?_)
  refine took (.inl rfl) (fun _ u hu => ?_) (tookOperator (fun _ u hu => ?_) (peek ?_))
  · have hlt := hu.lt
    refine (ofTest hcall (by omega)).bind fun hint v hv _ => ?_
    refine bind (node rfl rfl) fun id r hr hid => ?_
    refine tookOperator (fun _ t ht => ?_) (ret rfl hid)
    have hless := ht.lt
    exact (assigned hcall (by omega)).bind fun right _ _ _ => node rfl rfl
  · have hlt := hu.lt
    exact assignment hcall (by omega)
  · rw [Token.operator?_shift]
    cases hop : q.token.operator? with
    | none => exact ret rfl hleft
    | some op =>
      refine ite (fun _ => ret rfl hleft) fun _ => ?_
      refine advance (Frame.not_isEnd (endsLine_of_operator? hop)) fun u hu => ?_
      have hlt := hu.lt
      exact (assigned hcall (by omega)).bind fun right _ _ _ => node rfl rfl

omit hcall in
/-- Whether a simple statement ends may be seen. -/
theorem atStatementEnd {γ δ : Type} {h : γ → δ} {goal : γ → Spot → Prop} {k : Bool → Parser γ}
    {k' : Bool → Parser δ}
    (hk : Alike F p h (k (p.token.kind == .semicolon || endsLine p.token.kind))
      (k' (p.token.kind == .semicolon || endsLine p.token.kind)) goal) :
    Alike F p h (Grammar.atStatementEnd >>= k) (Grammar.atStatementEnd >>= k') goal :=
  look (f := fun t => t.kind == .semicolon || endsLine t.kind) (fun _ => rfl) (fun _ => rfl) hk

/-- A raising statement may be read. -/
theorem raiseStatement (hend : endsLine p.token.kind = false) (hw : 4 * p.after.length ≤ w) :
    AlikeNode F p (Grammar.raiseStatement call) (Grammar.raiseStatement call') := by
  refine advance (Frame.not_isEnd hend) fun q hq => ?_
  have hlt := hq.lt
  refine atStatementEnd (ite (fun _ => node rfl rfl) fun _ => ?_)
  refine (ofTest hcall (by omega)).bind fun exception u hu _ => ?_
  refine tookKeyword (fun _ v hv => ?_) (node rfl rfl)
  have hless := hv.lt
  exact (mapSome (ofTest hcall (by omega))).bind fun cause _ _ _ => node rfl rfl

/-- A statement without a block may be read. -/
theorem simpleStatement (hw : 4 * p.after.length + 3 < w) :
    AlikeNode F p (Grammar.simpleStatement call) (Grammar.simpleStatement call') := by
  refine peek ?_
  rw [Token.keyword?_shift]
  have hexpression := expressionStatement hcall hw
  cases hkeyword : p.token.keyword? with
  | none => exact hexpression
  | some keyword =>
    have hend := endsLine_of_keyword? hkeyword
    have hend' := Frame.not_isEnd (F := F) hend
    cases keyword with
    | pass => exact keywordStatement hend rfl
    | «break» => exact keywordStatement hend rfl
    | «continue» => exact keywordStatement hend rfl
    | «return» =>
      refine advance hend' fun q hq => atStatementEnd (ite (fun _ => node rfl rfl) fun _ => ?_)
      have hlt := hq.lt
      exact (mapSome (testList hcall (by omega))).bind fun id _ _ _ => node rfl rfl
    | raise => exact raiseStatement hcall hend (by omega)
    | del =>
      refine advance hend' fun q hq => ?_
      have hlt := hq.lt
      exact (testItems hcall (by omega)).bind fun targets _ _ _ => node rfl rfl
    | global => exact advance hend' fun q hq => nameList.bind fun names _ _ _ => node rfl rfl
    | nonlocal => exact advance hend' fun q hq => nameList.bind fun names _ _ _ => node rfl rfl
    | «import» => exact importStatement hend
    | «from» => exact fromStatement hend
    | assert =>
      refine advance hend' fun q hq => ?_
      have hlt := hq.lt
      refine (ofTest hcall (by omega)).bind fun condition u hu _ => ?_
      refine took (.inl rfl) (fun _ v hv => ?_) (node rfl rfl)
      have hless := hv.lt
      exact (mapSome (ofTest hcall (by omega))).bind fun message _ _ _ => node rfl rfl
    | _ => exact hexpression

/-- A simple statement of a line may be read. Where the line has tokens one of them is taken, and
another statement follows just if the line does not end. -/
theorem lineStatement (hw : 4 * p.after.length + 3 < w) :
    Alike F p (Prod.map (· + F.ids) id) (Grammar.lineStatement call) (Grammar.lineStatement call')
      fun found q => endsLine q.token.kind = !found.2 ∧
        (endsLine p.token.kind = false → q.after.length < p.after.length) := by
  unfold Grammar.lineStatement
  refine (simpleStatement hcall hw).bind fun statement q hq _ => ?_
  refine took (.inl rfl) (fun _ u hu => atEndOfLine (ret rfl ⟨?_, fun _ => ?_⟩)) (atEndOfLine ?_)
  · exact (Bool.not_not _).symm
  · have hlt := hu.lt
    omega
  -- A line that has tokens has one fewer where it ends.
  have htaken : ∀ u, p.Before u → endsLine u.token.kind = true → endsLine p.token.kind = false →
      u.after.length < p.after.length := by
    intro u hu hend hline
    refine Nat.lt_of_le_of_ne hu.1 fun heq => ?_
    rw [hu.2.2.1 heq, hline] at hend
    cases hend
  extract_lets rest rest'
  cases hend : endsLine q.token.kind with
  | true => exact ret rfl ⟨hend, htaken q hq hend⟩
  | false =>
    refine fault (skipToEndOfLine fun u hu hend => ret rfl ⟨hend, ?_⟩)
    exact htaken u (hq.trans hu) hend

/-- The simple statements of a line may be read, up to its end. -/
theorem statementLine (hend : endsLine p.token.kind = false) (hw : 4 * p.after.length + 3 < w) :
    Alike F p (· + F.ids) (Grammar.statementLine call) (Grammar.statementLine call') fun id q =>
      id < q.nodes ∧ endsLine q.token.kind = true ∧ q.after.length < p.after.length := by
  refine currentStart ((lineStatement hcall hw).bind fun first q hq hfirst => ?_)
  have hlt := hfirst.2 hend
  refine bind (foldMany (g := Prod.map (List.map (· + F.ids)) id) (a := ([first.1], first.2))
    (I := fun found q => endsLine q.token.kind = !found.2)
    (J := fun _ q => endsLine q.token.kind = true) hfirst.1 fun found u hu hfound => ?_)
    fun found u hu hfound => ?_
  · obtain ⟨statements, goesOn⟩ := found
    cases goesOn with
    | false => exact ret rfl hfound
    | true =>
      refine (lineStatement hcall (by omega)).bind fun next v hv hnext => ?_
      exact ret rfl ⟨hnext.1, hnext.2 hfound⟩
  · refine (nodeHere rfl ?_).weaken fun id v hv hid => ⟨hid.1, hid.2 ▸ hfound, by omega⟩
    simp [Form.shift, List.map_reverse]

/-! ## Blocks -/

section Whole

variable (hF : F.whole = true)
include hF

omit hcall in
/-- The end of a line may be taken, on the way to the end of the stream. -/
theorem takes_newLine : F.Takes .newLine := .inr ⟨hF, nofun⟩

/-- The simple statements of a line may be read. -/
theorem statementList (hend : endsLine p.token.kind = false) (hw : 4 * p.after.length + 3 < w) :
    AlikeStatement F p (Grammar.statementList call) (Grammar.statementList call') := by
  rw [Grammar.statementList_eq, Grammar.statementList_eq]
  refine (statementLine hcall hend hw).bind fun line q hq hline => ?_
  refine consume (takes_newLine hF) (fun _ u hu => ret rfl ?_) (ret rfl ⟨hline.1, hline.2.2⟩)
  have hlt := hu.lt
  exact ⟨Nat.lt_of_lt_of_le hline.1 hu.before.2.1, by omega⟩

/-- A statement may be read as an item of several. -/
theorem statementItem (hend : endsLine p.token.kind = false) (hw : 4 * p.after.length + 4 < w) :
    AlikeItem F p (do return some (some (← call .statement)))
      (do return some (some (← call' .statement))) :=
  (hcall .statement p hw ⟨hF, hend⟩).bind fun _ _ _ hid => ret rfl fun _ => hid.2 rfl

/-- A statement of a block, or a token that is none, may be read. -/
theorem blockItem (hw : 4 * p.after.length + 4 < w) :
    AlikeItem F p (Grammar.blockItem call) (Grammar.blockItem call') := by
  refine peek ?_
  have hstatement := fun hend => statementItem hcall hF hend hw
  obtain ⟨⟨range, lexeme⟩, after, nodes, depth⟩ := p
  cases lexeme with
  | endOfStream => exact ret rfl nofun
  | newLine => exact advancePast hF fun q hq hlt => ret rfl fun _ => hlt nofun
  | indent =>
    exact fault (advance (Frame.not_isEnd rfl) fun q hq => ret rfl fun _ => hq.lt)
  | dedent amount matchesIndent =>
    refine withPlace fun hplace => advance (Frame.not_isEnd rfl) fun q hq => ?_
    cases matchesIndent with
    | true => exact ret rfl nofun
    | false => exact faultAt hplace (ret rfl nofun)
  | _ => exact hstatement rfl

/-- A statement of a text, or a token that is none, may be read. -/
theorem moduleItem (hw : 4 * p.after.length + 4 < w) :
    AlikeItem F p (Grammar.moduleItem call) (Grammar.moduleItem call') := by
  refine peek ?_
  have hstatement := fun hend => statementItem hcall hF hend hw
  obtain ⟨⟨range, lexeme⟩, after, nodes, depth⟩ := p
  cases lexeme with
  | endOfStream => exact ret rfl nofun
  | newLine => exact advancePast hF fun q hq hlt => ret rfl fun _ => hlt nofun
  | indent =>
    exact fault (advance (Frame.not_isEnd rfl) fun q hq => ret rfl fun _ => hq.lt)
  | dedent =>
    exact fault (advance (Frame.not_isEnd rfl) fun q hq => ret rfl fun _ => hq.lt)
  | _ => exact hstatement rfl

omit hcall hF in
/-- Where the last of some nodes stops is found further back. -/
theorem last_shift {s s' : ParseState} (hs : Beside F p s s') (ids : List NodeId) (n : Nat) :
    (((ids.map (· + F.ids)).getLast?.bind s'.arena.range?).map TextRange.stop).getD (n + F.bytes) =
      ((ids.getLast?.bind s.arena.range?).map TextRange.stop).getD n + F.bytes := by
  rw [List.getLast?_map, hs.arena]
  cases ids.getLast? with
  | none => rfl
  | some id =>
    simp only [Option.map_some, Option.bind_some, Arena.range?_behind]
    cases s.arena.range? id with
    | none => rfl
    | some r => exact TextRange.stop_shift F.bytes r

/-- A colon and a block may be read. -/
theorem suite (hw : 4 * p.after.length + 3 < w) :
    AlikeNode F p (Grammar.suite call) (Grammar.suite call') := by
  unfold Grammar.suite
  refine currentStart ?_
  extract_lets rest rest'
  have hrest : ∀ colonStop q, p.Before q →
      AlikeNode F q (rest colonStop) (rest' (colonStop + F.bytes)) := by
    intro colonStop q hq
    have hnode : ∀ (statements : List NodeId) u, AlikeNode F u
        (Parser.addNode p.token.start colonStop (.suite statements))
        (Parser.addNode (p.token.start + F.bytes) (colonStop + F.bytes)
          (.suite (statements.map (· + F.ids)))) :=
      fun statements u => addNode rfl (Nat.add_max_add_right ..) rfl
    refine took (takes_newLine hF) (fun _ u hu => ?_) (atEndOfLine ?_)
    · have hlt := hu.lt
      refine took (.inl rfl) (fun _ v hv => ?_) (fault (hnode [] u))
      have hless := hv.lt
      refine bind (many fun r hr => blockItem hcall hF (by omega)) fun items r hr _ => ?_
      rw [filterMap_id_shift]
      refine inspect fun s s' hs => addNode rfl ?_ rfl
      rw [last_shift hs, Nat.add_max_add_right]
    · refine ite (fun _ => hnode [] q) fun hgoesOn => ?_
      have hline : endsLine q.token.kind = false := Bool.not_eq_true _ ▸ hgoesOn
      have hlist : AlikeNodes F q (List.singleton <$> Grammar.statementList call)
          (List.singleton <$> Grammar.statementList call') :=
        map (statementList hcall hF hline (by omega)) (fun _ => rfl) fun _ _ _ _ => trivial
      exact hlist.bind fun statements u _ _ => hnode statements u
  refine consume (.inl rfl) (fun _ q hq => ?_) (fault (hrest p.token.start p (.refl p)))
  have hcolon := hrest p.token.stop q hq.before
  rw [← Token.stop_shift] at hcolon
  exact hcolon

/-- A block may be read after a keyword. -/
theorem suiteAfter (keyword : Keyword) (hw : 4 * p.after.length ≤ w) :
    AlikeOption F p (Grammar.suiteAfter call keyword) (Grammar.suiteAfter call' keyword) := by
  refine tookKeyword (fun _ q hq => ?_) (ret rfl trivial)
  have hlt := hq.lt
  exact mapSome (suite hcall hF (by omega))

/-! ## Functions and classes -/

/-- A function may be read after its keyword. -/
theorem functionFrom {start : Nat} {decorators : List NodeId} {isAsync : Bool}
    (hw : 4 * p.after.length + 3 < w) :
    AlikeNode F p (Grammar.functionFrom call start decorators isAsync)
      (Grammar.functionFrom call' (start + F.bytes) (decorators.map (· + F.ids)) isAsync) := by
  unfold Grammar.functionFrom
  refine (name .functionName).bind fun title q hq _ => took (.inl rfl) (fun _ u hu => ?_) (fault ?_)
  · have hlt := hu.lt
    refine (parameterList hcall .closeParenthesis true (by omega)).bind fun parameters v hv _ => ?_
    refine expect (.inl rfl) fun _ r hr => ?_
    extract_lets rest rest'
    have hrest : ∀ (hint : Option NodeId) t, r.Before t →
        AlikeNode F t (rest hint) (rest' (hint.map (· + F.ids))) := by
      intro hint t ht
      exact (suite hcall hF (by omega)).bind fun body _ _ _ => nodeOver rfl rfl
    refine took (.inl rfl) (fun _ t ht => ?_) (hrest none r (.refl r))
    have hless := ht.lt
    exact (mapSome (ofTest hcall (by omega))).bind fun hint v hv _ =>
      hrest hint v (ht.before.trans hv)
  · refine (errorNode _ (some title)).bind fun error u hu herror => ?_
    exact skipToEndOfLine fun v hv _ => ret rfl (Nat.lt_of_lt_of_le herror hv.2.1)

omit hcall hF in
/-- What comes after a token was taken is shorter. -/
theorem shorter {x x' : Parser NodeId} (hq : p.Next q) (hx : AlikeNode F q x x') :
    Alike F q (· + F.ids) x x' fun id u => id < u.nodes ∧ u.after.length < p.after.length := by
  have hlt := hq.lt
  exact hx.weaken fun id u hu hid => ⟨hid, by omega⟩

/-- A function may be read from its keyword on. -/
theorem functionDefinition {decorators : List NodeId} (asyncStart : Option Nat)
    (hend : endsLine p.token.kind = false) (hw : 4 * p.after.length ≤ w) :
    AlikeStatement F p (Grammar.functionDefinition call decorators asyncStart)
      (Grammar.functionDefinition call' (decorators.map (· + F.ids))
        (asyncStart.map (· + F.bytes))) := by
  refine advance (Frame.not_isEnd hend) fun q hq => shorter hq ?_
  have hlt := hq.lt
  cases asyncStart with
  | none => exact functionFrom hcall hF (by omega)
  | some start => exact functionFrom hcall hF (by omega)

/-- A class may be read. -/
theorem classDefinition {decorators : List NodeId} (hend : endsLine p.token.kind = false)
    (hw : 4 * p.after.length ≤ w) :
    AlikeStatement F p (Grammar.classDefinition call decorators)
      (Grammar.classDefinition call' (decorators.map (· + F.ids))) := by
  unfold Grammar.classDefinition
  refine advance (Frame.not_isEnd hend) fun q hq => shorter hq ?_
  have hlt := hq.lt
  refine (name .className).bind fun title u hu _ => ?_
  extract_lets rest rest'
  have hrest : ∀ (arguments : List NodeId) v, u.Before v →
      AlikeNode F v (rest arguments) (rest' (arguments.map (· + F.ids))) := by
    intro arguments v hv
    exact (suite hcall hF (by omega)).bind fun body _ _ _ => nodeOver rfl rfl
  refine took (.inl rfl) (fun _ v hv => ?_) (hrest [] u (.refl u))
  have hless := hv.lt
  refine (argumentList hcall (by omega)).bind fun arguments r hr _ => ?_
  exact expect (.inl rfl) fun _ t ht => hrest arguments t (hv.before.trans (hr.trans ht))

/-- A decorator may be read, if one starts at the next token. -/
theorem decorator (hw : 4 * p.after.length ≤ w) :
    Alike F p (Option.map (· + F.ids)) (Grammar.decorator call) (Grammar.decorator call')
      fun id q => id.isSome = true ∨ p.token.operator? = some .matrixMultiply →
        q.after.length < p.after.length := by
  unfold Grammar.decorator
  refine consumeOperator (fun _ q hq => atEndOfLine ?_)
    fun hne => ret rfl fun h => h.elim nofun (absurd · hne)
  have hlt := hq.lt
  extract_lets rest rest'
  have hrest : ∀ id u, q.Before u → Alike F u (Option.map (· + F.ids)) (rest id)
      (rest' (id + F.ids)) fun _ q => q.after.length < p.after.length := by
    intro expression u hu
    refine bind (node rfl rfl) fun decorator v hv _ => atEndOfLine ?_
    extract_lets last last'
    have hlast : ∀ r, u.Before r → Alike F r (Option.map (· + F.ids)) (last ⟨⟩) (last' ⟨⟩)
        fun _ q => q.after.length < p.after.length := by
      intro r hr
      refine consume (takes_newLine hF) (fun _ t ht => ret rfl ?_) (ret rfl (by omega))
      have hless := ht.lt
      omega
    exact ite (fun _ => fault (skipToEndOfLine fun r hr _ => hlast r (hv.trans hr)))
      fun _ => hlast v hv
  refine ite (fun _ => fault ?_) fun _ => ?_
  · exact (errorNode _ none).bind fun id u hu _ => (hrest id u hu).weaken fun _ _ _ h _ => h
  · exact (ofTest hcall (by omega)).bind fun id u hu _ => (hrest id u hu).weaken fun _ _ _ h _ => h

omit hcall hF in
/-- Where the first of some nodes starts is found further back. -/
theorem head_shift {s s' : ParseState} (hs : Beside F p s s') (ids : List NodeId) (n : Nat) :
    (((ids.map (· + F.ids)).head?.bind s'.arena.range?).map (·.start)).getD (n + F.bytes) =
      ((ids.head?.bind s.arena.range?).map (·.start)).getD n + F.bytes := by
  rw [hs.arena]
  cases ids with
  | nil => rfl
  | cons id ids =>
    simp only [List.map_cons, List.head?_cons, Option.bind_some, Arena.range?_behind]
    cases s.arena.range? id <;> rfl

/-- Decorators and what they stand before may be read. -/
theorem decorated (hat : p.token.operator? = some .matrixMultiply) (hw : 4 * p.after.length ≤ w) :
    AlikeStatement F p (Grammar.decorated call) (Grammar.decorated call') := by
  refine bind (manyFrom (P := fun q => q.after.length < p.after.length)
    (fun q u _ hu hlt => Nat.lt_of_le_of_lt hu.1 hlt)
    ((decorator hcall hF hw).weaken fun _ _ _ h => h (.inr hat))
    fun q hq => (decorator hcall hF (by omega)).weaken fun _ _ _ h hsome => h (.inl hsome))
    fun decorators q hq hlt => ?_
  have hdefinition : ∀ {r : Spot} {x x' : Parser NodeId}, q.Before r → AlikeStatement F r x x' →
      Alike F r (· + F.ids) x x' fun id u => id < u.nodes ∧ u.after.length < p.after.length :=
    fun hr hx => hx.weaken fun id u _ hid => ⟨hid.1, by omega⟩
  refine peek (peekSecond fun t t' ht => ?_)
  rw [Token.keyword?_shift]
  refine ite (fun hfirst => ?_) fun _ => ite (fun hfirst => ?_) fun _ => ?_
  · have hline := endsLine_of_keyword? (eq_of_beq hfirst)
    exact hdefinition (.refl q) (functionDefinition hcall hF none hline (by omega))
  · have hline := endsLine_of_keyword? (eq_of_beq hfirst)
    exact hdefinition (.refl q) (classDefinition hcall hF hline (by omega))
  have hasync : (q.token.keyword? == some .async) = true → endsLine q.token.kind = false :=
    fun h => endsLine_of_keyword? (eq_of_beq h)
  refine iteOf (second_eq (f := fun t => t.keyword? == some .define) (fun _ => rfl) hasync ht)
    (fun hboth => ?_) fun _ => fault (inspect fun s s' hs => currentStart ?_)
  · rw [Bool.and_eq_true] at hboth
    obtain ⟨u, hu, rfl, rfl⟩ := ht (hasync hboth.1)
    refine advance (Frame.not_isEnd (hasync hboth.1)) fun v hv => ?_
    have hless := hv.lt
    obtain ⟨htoken, -⟩ := List.cons.inj (hu.after.symm.trans hv.after)
    have hline := endsLine_of_keyword? (htoken ▸ eq_of_beq hboth.2)
    exact hdefinition hv.before
      (functionDefinition hcall hF (some q.token.start) hline (by omega))
  · refine (nodeOver (head_shift hs decorators q.token.start) rfl).weaken fun id u hu hid => ?_
    exact ⟨hid, by omega⟩

/-! ## Statements with blocks -/

/-- A conditional statement may be read. -/
theorem ifStatement (hend : endsLine p.token.kind = false) (hw : 4 * p.after.length ≤ w) :
    AlikeStatement F p (Grammar.ifStatement call) (Grammar.ifStatement call') := by
  unfold Grammar.ifStatement
  refine advance (Frame.not_isEnd hend) fun q hq => shorter hq ?_
  have hlt := hq.lt
  refine (ofTest hcall (by omega)).bind fun condition u hu _ => ?_
  refine (suite hcall hF (by omega)).bind fun body v hv _ => atKeyword ?_
  refine ite (fun hnext => ?_) fun _ => ?_
  · have hline := endsLine_of_keyword? (eq_of_beq hnext)
    have hif : AlikeNode F v (call .ifStatement) (call' .ifStatement) :=
      (hcall .ifStatement v (by simp only [Rule.rank]; omega) ⟨hF, hline⟩).weaken fun _ _ _ h => h.1
    exact (mapSome hif).bind fun other _ _ _ => nodeOver rfl rfl
  · exact (suiteAfter hcall hF .else (by omega)).bind fun other _ _ _ => nodeOver rfl rfl

/-- A loop under a condition may be read. -/
theorem whileStatement (hend : endsLine p.token.kind = false) (hw : 4 * p.after.length ≤ w) :
    AlikeStatement F p (Grammar.whileStatement call) (Grammar.whileStatement call') := by
  refine advance (Frame.not_isEnd hend) fun q hq => shorter hq ?_
  have hlt := hq.lt
  refine (ofTest hcall (by omega)).bind fun condition u hu _ => ?_
  refine (suite hcall hF (by omega)).bind fun body v hv _ => ?_
  exact (suiteAfter hcall hF .else (by omega)).bind fun other _ _ _ => nodeOver rfl rfl

/-- A loop over the items of a value may be read. -/
theorem forStatement (asyncStart : Option Nat) (hend : endsLine p.token.kind = false)
    (hw : 4 * p.after.length ≤ w) :
    AlikeStatement F p (Grammar.forStatement call asyncStart)
      (Grammar.forStatement call' (asyncStart.map (· + F.bytes))) := by
  unfold Grammar.forStatement
  refine advance (Frame.not_isEnd hend) fun q hq => shorter hq ?_
  have hlt := hq.lt
  extract_lets start start'
  have hstart : start' = start + F.bytes := by
    unfold start start'
    cases asyncStart <;> rfl
  refine (targetList hcall (by omega)).bind fun target u hu _ => ?_
  extract_lets rest rest'
  have hrest : ∀ iterable v, u.Before v →
      AlikeNode F v (rest iterable) (rest' (iterable + F.ids)) := by
    intro iterable v hv
    refine (suite hcall hF (by omega)).bind fun body r hr _ => ?_
    refine (suiteAfter hcall hF .else (by omega)).bind fun other _ _ _ => nodeOver hstart ?_
    rw [Option.isSome_map]
    rfl
  refine tookKeyword (fun _ v hv => ?_) (fault ?_)
  · have hless := hv.lt
    exact (testList hcall (by omega)).bind fun id r hr _ => hrest id r (hv.before.trans hr)
  · exact (errorNode _ none).bind fun id r hr _ => hrest id r hr

/-- What is done on some exceptions may be read. -/
theorem exceptClause (hw : 4 * p.after.length ≤ w) :
    Alike F p (Option.map (· + F.ids)) (Grammar.exceptClause call) (Grammar.exceptClause call')
      fun id q => id.isSome = true → q.after.length < p.after.length := by
  unfold Grammar.exceptClause
  refine consumeKeyword (fun _ q hq => «at» ?_) (ret rfl nofun)
  have hlt := hq.lt
  extract_lets rest rest'
  have hrest : ∀ (names : Option NodeId × Option NodeId) u, q.Before u →
      Alike F u (Option.map (· + F.ids)) (rest names)
        (rest' (names.1.map (· + F.ids), names.2.map (· + F.ids)))
        fun id q => id.isSome = true → q.after.length < p.after.length := by
    intro names u hu
    refine (suite hcall hF (by omega)).bind fun body v hv _ => ?_
    exact bind (tokenNode rfl) fun id r hr _ => ret rfl fun _ => by omega
  refine ite (fun _ => hrest (none, none) q (.refl q)) fun _ => ?_
  refine (ofTest hcall (by omega)).bind fun expression u hu _ => ?_
  exact (nameAfter _ _).bind fun title v hv _ => hrest (some expression, title) v (hu.trans hv)

/-- A block that may fail and what is done then may be read. -/
theorem tryStatement (hend : endsLine p.token.kind = false) (hw : 4 * p.after.length ≤ w) :
    AlikeStatement F p (Grammar.tryStatement call) (Grammar.tryStatement call') := by
  unfold Grammar.tryStatement
  refine advance (Frame.not_isEnd hend) fun q hq => shorter hq ?_
  have hlt := hq.lt
  refine (suite hcall hF (by omega)).bind fun body u hu _ => ?_
  refine bind (many fun v hv => exceptClause hcall hF (by omega)) fun clauses v hv _ => ?_
  extract_lets rest rest'
  have hrest : ∀ (other : Option NodeId) r, v.Before r →
      AlikeNode F r (rest other) (rest' (other.map (· + F.ids))) := by
    intro other r hr
    refine (suiteAfter hcall hF .finally (by omega)).bind fun final t ht _ => ?_
    refine iteOf ?_ (fun _ => fault (nodeOver rfl rfl)) fun _ => nodeOver rfl rfl
    simp
  refine iteOf (by simp) (fun _ => hrest none v (.refl v)) fun _ => ?_
  exact (suiteAfter hcall hF .else (by omega)).bind fun other r hr _ => hrest other r hr

omit hF in
/-- A managed value may be read. -/
theorem withItem (hw : 4 * p.after.length + 3 < w) :
    AlikeNode F p (Grammar.withItem call) (Grammar.withItem call') := by
  refine currentStart ((ofTest hcall hw).bind fun expression q hq _ => ?_)
  refine tookKeyword (fun _ u hu => ?_) (node rfl rfl)
  have hlt := hu.lt
  exact (mapSome (targetList hcall (by omega))).bind fun target _ _ _ => node rfl rfl

/-- A block with managed values may be read. -/
theorem withStatement (asyncStart : Option Nat) (hend : endsLine p.token.kind = false)
    (hw : 4 * p.after.length ≤ w) :
    AlikeStatement F p (Grammar.withStatement call asyncStart)
      (Grammar.withStatement call' (asyncStart.map (· + F.bytes))) := by
  unfold Grammar.withStatement
  refine advance (Frame.not_isEnd hend) fun q hq => shorter hq ?_
  have hlt := hq.lt
  refine (items fun u hu => withItem hcall (by omega)).bind fun items u hu _ => ?_
  refine (suite hcall hF (by omega)).bind fun body _ _ _ => ?_
  cases asyncStart with
  | none => exact nodeOver rfl rfl
  | some start => exact nodeOver rfl rfl

/-- An asynchronous statement may be read. -/
theorem asyncStatement (hend : endsLine p.token.kind = false) (hw : 4 * p.after.length + 3 < w) :
    AlikeStatement F p (Grammar.asyncStatement call) (Grammar.asyncStatement call') := by
  unfold Grammar.asyncStatement
  refine peekSecond fun t t' ht => ?_
  obtain ⟨q, hq, rfl, rfl⟩ := ht hend
  rw [Token.keyword?_shift]
  have hfallback : AlikeStatement F p
      (do
        Parser.fault .asyncAlone
        Grammar.statementList call)
      (do
        Parser.fault .asyncAlone
        Grammar.statementList call') := fault (statementList hcall hF hend hw)
  cases hsecond : q.token.keyword? with
  | none => exact hfallback
  | some keyword =>
    -- After the first word comes a definition or a block, from its own word on.
    have hnext : ∀ {x x' : Token → Parser NodeId},
        (∀ r, r.after.length < p.after.length → endsLine r.token.kind = false →
          AlikeStatement F r (x p.token) (x' (p.token.shift F.bytes))) →
        AlikeStatement F p (Parser.advance >>= x) (Parser.advance >>= x') := by
      intro x x' hx
      refine advance (Frame.not_isEnd hend) fun r hr => ?_
      obtain ⟨htoken, -⟩ := List.cons.inj (hq.after.symm.trans hr.after)
      have hlt := hr.lt
      exact (hx r hlt (endsLine_of_keyword? (htoken ▸ hsecond))).weaken
        fun id u _ hid => ⟨hid.1, by omega⟩
    cases keyword with
    | define => exact hnext fun r hr hline => functionDefinition hcall hF (some _) hline (by omega)
    | «for» => exact hnext fun r hr hline => forStatement hcall hF (some _) hline (by omega)
    | «with» => exact hnext fun r hr hline => withStatement hcall hF (some _) hline (by omega)
    | _ => exact hfallback

/-- A statement may be read. -/
theorem statement (hend : endsLine p.token.kind = false) (hw : 4 * p.after.length + 3 < w) :
    AlikeStatement F p (Grammar.statement call) (Grammar.statement call') := by
  unfold Grammar.statement
  refine peek ?_
  have hline := statementList hcall hF hend hw
  have hw' : 4 * p.after.length ≤ w := by omega
  have hasync := asyncStatement hcall hF hend hw
  obtain ⟨⟨range, lexeme⟩, after, nodes, depth⟩ := p
  cases lexeme with
  | keyword keyword =>
    cases keyword with
    | define => exact functionDefinition hcall hF none rfl hw'
    | «class» => exact classDefinition hcall hF rfl hw'
    | «if» => exact ifStatement hcall hF rfl hw'
    | «while» => exact whileStatement hcall hF rfl hw'
    | «for» => exact forStatement hcall hF none rfl hw'
    | «try» => exact tryStatement hcall hF rfl hw'
    | «with» => exact withStatement hcall hF none rfl hw'
    | async => exact hasync
    | _ => exact hline
  | operator op =>
    cases op with
    | matrixMultiply => exact decorated hcall hF rfl hw'
    | _ => exact hline
  | _ => exact hline

end Whole

end Rules

end Alike

/-! ## All rules -/

/-- Each rule goes side by side, if the rules that it leads to do. -/
theorem RulesAlike.body {F : Frame} {w : Nat} {call call' : Rules}
    (hcall : RulesAlike F w call call') (rule : Rule) (p : Spot)
    (hw : 4 * p.after.length + rule.rank ≤ w) (hfits : rule.Fits F p) :
    Alike F p (· + F.ids) (rule.body call) ((rule.shift F).body call') fun id q =>
      id < q.nodes ∧ (rule = .statement → q.after.length < p.after.length) := by
  have hnode : ∀ {x x' : Parser NodeId}, rule ≠ .statement → AlikeNode F p x x' →
      Alike F p (· + F.ids) x x' fun id q =>
        id < q.nodes ∧ (rule = .statement → q.after.length < p.after.length) :=
    fun hne hx => hx.weaken fun _ _ _ h => ⟨h, fun heq => absurd heq hne⟩
  cases rule with
  | test => exact hnode (by simp) (Alike.test hcall (by simp only [Rule.rank] at hw; omega))
  | lambda => exact hnode (by simp) (Alike.lambda hcall hfits hw)
  | notTest => exact hnode (by simp) (Alike.notTest hcall (by simp only [Rule.rank] at hw; omega))
  | factor => exact hnode (by simp) (Alike.factor hcall hw)
  | atomExpression => exact hnode (by simp) (Alike.atomExpression hcall hw)
  | statement => exact (Alike.statement hcall hfits.1 hfits.2 hw).weaken fun _ _ _ h =>
      ⟨h.1, fun _ => h.2⟩
  | ifStatement => exact hnode (by simp) ((Alike.ifStatement hcall hfits.1 hfits.2 hw).weaken
      fun _ _ _ h => h.1)
  | assignment start left => exact hnode (by simp) (Alike.assignment hcall hw)

/-- All rules go side by side, where the bounds for the depth of their calls are great enough. -/
theorem RulesAlike.parse (F : Frame) {w fuel fuel' : Nat} (hw : w ≤ fuel) (hw' : w ≤ fuel') :
    RulesAlike F w (Rule.parse fuel) (Rule.parse fuel') := by
  induction fuel generalizing w fuel' with
  | zero => exact fun rule p hlt => absurd hlt (by omega)
  | succ fuel ih =>
    intro rule p hlt hfits
    obtain ⟨fuel', rfl⟩ := Nat.exists_eq_add_of_le' (show 1 ≤ fuel' by omega)
    have hcall : RulesAlike F (4 * p.after.length + rule.rank) (Rule.parse fuel)
      (Rule.parse fuel') := ih (by omega) (by omega)
    exact hcall.body rule p (Nat.le_refl _) hfits

end TypeProbe
