import TypeProbe.Proofs.Block.Suites

/-!
# Statements with blocks

Each rule for statements goes on from the first token of a statement to behind its last block, with
the node of the statement as the only root. From that, all rules read statements with the blocks in
them, however deep they call each other (`RulesPassage.parse`).
-/

open TypeProbe.Parser

namespace TypeProbe

/-! ## Parts of definitions -/

namespace Grammar

variable (call : Rules)

/-- A function without a parameter list, behind its name. -/
def functionWithoutParameters (title : NodeId) : Parser NodeId := do
  fault (.spelling "(")
  let error ← errorNode .missingFunctionParameterList (some title)
  skipToEndOfLine
  return error

/-- A function behind the parenthesis of its parameters. -/
def functionRest (start : Nat) (decorators : List NodeId) (isAsync : Bool) (title : NodeId) :
    Parser NodeId := do
  let parameters ← parameterList call .closeParenthesis true
  let _ ← expect .closeParenthesis ")"
  let returnHint ← if ← took .arrow then some <$> call .test else pure none
  let body ← suite call
  addNode start start (.function decorators isAsync title parameters returnHint body)

/-- A function has parameters, or is an error. -/
theorem functionFrom_eq (start : Nat) (decorators : List NodeId) (isAsync : Bool) :
    functionFrom call start decorators isAsync = (do
      let title ← name .functionName
      if ← took .openParenthesis then functionRest call start decorators isAsync title
      else functionWithoutParameters title) := by
  refine congrArg (name .functionName >>= ·) (funext fun title => ?_)
  refine congrArg (took .openParenthesis >>= ·) (funext fun found => ?_)
  cases found <;> rfl

/-- The definition behind some decorators, which may be missing. -/
def definitionAfter (decorators : List NodeId) : Parser NodeId := do
  let first := (← peek).keyword?
  let second := (← peekSecond).keyword?
  if first == some .define then functionDefinition call decorators none
  else if first == some .class then classDefinition call decorators
  else if first == some .async && second == some .define then do
    let token ← advance
    functionDefinition call decorators (some token.start)
  else do
    fault .decoratedDefinition
    let range := decorators.head?.bind (← get).arena.range?
    let start := (range.map (·.start)).getD (← currentStart)
    addNode start start (.statementList decorators)

/-- Decorators are read before their definition. -/
theorem decorated_eq : decorated call = many (decorator call) >>= definitionAfter call := by
  refine congrArg (many (decorator call) >>= ·) (funext fun decorators => ?_)
  refine congrArg (peek >>= ·) (funext fun first => ?_)
  refine congrArg (peekSecond >>= ·) (funext fun second => ?_)
  cases first.keyword? == some .define
  · cases first.keyword? == some .class
    · cases first.keyword? == some .async && second.keyword? == some .define <;> rfl
    · rfl
  · rfl

end Grammar

namespace Parser

variable {α : Type} {s : ParseState}

/-- A parser may look at the token after the next one. -/
theorem run_peekSecond_bind {f : Token → Parser α} :
    (peekSecond >>= f).run s = (f (s.following.headD s.current)).run s := rfl

/-- A parser may go on behind the next token. -/
theorem run_advance_bind {f : Token → Parser α} :
    (advance >>= f).run s = (f s.current).run (advanced s) := rfl

end Parser

/-! ## From the first token on -/

section First

variable {α : Type} {length n k : Nat} {T : List Token} {B : Origin} {line : Bool} {s : ParseState}
  {roots : List NodeId}

/-- A parser takes a token that is written in the text, and goes on within the line. -/
theorem Passage.advance (hT : Tape length T) (h : Passage T B line roots s)
    (hwritten : s.current.lexeme.IsWritten) (post : α → List NodeId) {f : Token → Parser α}
    (hf : Passages T B true roots (f s.current) false post) :
    Passage T B false (post ((Parser.advance >>= f).run s).1) ((Parser.advance >>= f).run s).2 :=
  hf _ (h.advanced hT (fun hdedent => Token.not_isLayout hwritten (.inr (.inr hdedent)))
    fun _ => hwritten)

/-- A statement is read behind its first token. -/
theorem Passage.led (hT : Tape length T) (hs : s.At T k) (hwritten : s.current.lexeme.IsWritten)
    (hroom : s.following.length ≤ n) (post : α → List NodeId) {x : Parser α}
    (hx : ∀ m < n, Passages T ⟨s, k, s.current.stop, m⟩ true [] x false post) :
    Passage T (s.origin k n) false (post (x.run (Parser.advanced s)).1)
      (x.run (Parser.advanced s)).2 := by
  have hkind : s.current.kind ≠ .endOfStream := fun hkind => by
    rw [Token.kind_eq_endOfStream.1 hkind] at hwritten
    exact hwritten
  have hlength := hs.length_following
  have hlength' := (hs.advanced hT hkind).1.length_following
  obtain ⟨m, hm⟩ : ∃ m, s.following.length = m + 1 := ⟨_, (Nat.succ_pred_eq_of_pos (by omega)).symm⟩
  exact (hx m (by omega) _ (Passage.past hT hs hwritten (Nat.le_of_eq hm))).weaken
    s.current.range.start_le_stop (show m ≤ n by omega)

/-- A statement is read from its first token on. -/
theorem ReadsBlocks.advance (hT : Tape length T) {f : Token → Parser NodeId}
    (hf : ∀ s k m, m < n →
      Passages T ⟨s, k, s.current.stop, m⟩ true [] (f s.current) false fun id => [id]) :
    ReadsBlocks T n (Parser.advance >>= f) :=
  fun s k hs hwritten hroom => Passage.led hT hs hwritten hroom ([·]) (hf s k)

/-- A statement begins within a line. -/
theorem Passage.begin (hs : s.At T k) (hwritten : s.current.lexeme.IsWritten)
    (hroom : s.following.length ≤ n) : Passage T (s.origin k n) true [] s :=
  ⟨k, _, .begin hs (fun _ => hs.inLine hwritten) hroom⟩

/-- An error node may stand around a root as long as no suite has been read. -/
theorem Passage.errorNode (h : Passage T B line roots s) (category : ErrorCategory) {id : NodeId}
    (hid : id ∈ roots)
    (hnone : ∀ x, s.arena.kind? x = some .suite → B.state.arena.kind? x = some .suite) :
    Passage T ⟨B.state, B.place, s.current.start, B.room⟩ line
      [((Parser.errorNode category (some id)).run s).1]
      ((Parser.errorNode category (some id)).run s).2 := by
  obtain ⟨k, opens, hk⟩ := h.raise hnone
  obtain ⟨-, r, hr, hlo, hhi⟩ := hk.region.spans id hid id .refl
  have hstart : r.start ≤ s.current.start := Nat.le_trans r.start_le_stop hhi
  have hrun : (Parser.errorNode category (some id)).run s =
      (addNode r.start (max s.previousStop r.start) (.error category (some id))).run s := by
    show (addNode ((((some id).bind s.arena.range?).map (·.start)).getD s.current.start) _
      _).run s = _
    rw [Option.bind_some, hr]
    rfl
  rw [hrun]
  refine ⟨k, opens, hk.add (fun h => by cases h) (fun c hc => ?_) hlo hstart
    (Nat.max_le.2 ⟨hk.region.place.previous, hstart⟩)⟩
  rw [List.mem_singleton.1 hc]
  exact hid

end First

section Rules

variable {length fuel n : Nat} {T : List Token} {B : Origin} {s : ParseState}
  {roots : List NodeId} (hT : Tape length T) (hcall : RulesPassage T fuel)
include hT hcall

namespace Passages

/-- A suite may be read. -/
theorem suite (hw : 4 * B.room + 3 < fuel) :
    Passages T B true roots (Grammar.suite (Rule.parse fuel)) false fun id => id :: roots :=
  own hT ([·]) fun _ _ hs hline hroom => Passage.suite hT hcall hw hs (hline rfl) hroom

/-- A suite may be read after a keyword. -/
theorem suiteAfter (keyword : Keyword) (hw : 4 * B.room + 3 < fuel) :
    Passages T B false roots (Grammar.suiteAfter (Rule.parse fuel) keyword) false
      fun id => id.toList ++ roots :=
  tookKeyword hT (.map (suite hT hcall hw)) (.ret (fun _ => id) id)

end Passages

/-! ## Conditions and loops -/

/-- A conditional statement is read. -/
theorem ReadsBlocks.ifStatement (hw : 4 * n ≤ fuel) :
    ReadsBlocks T n (Grammar.ifStatement (Rule.parse fuel)) := by
  refine .advance hT fun s k m hm => ?_
  have hw' : 4 * m + 3 < fuel := by omega
  refine (Passages.within hT .test hw').bind fun condition => ?_
  refine (Passages.suite hT hcall hw').bind fun body => ?_
  extract_lets rest
  have hrest : ∀ other : Option NodeId,
      Passages T ⟨s, k, s.current.stop, m⟩ false (other.toList ++ [body, condition]) (rest other)
        false fun id => [id] := by
    refine fun other => .addNode (fun h => by cases h) (fun c hc => ?_) (Nat.le_refl _)
      s.current.range.start_le_stop s.current.range.start_le_stop
    simp only [Form.children, List.mem_cons, List.mem_append] at hc ⊢
    tauto
  refine .atKeyword (fun t hwritten ht => hrest (some _) _ (ht.append hT ?_)) ?_
  · exact fun i hi _ hroom => hcall.ifStatement m (by omega) t i hi hwritten hroom
  · exact (Passages.suiteAfter hT hcall .else hw').bind hrest

/-- A loop under a condition is read. -/
theorem ReadsBlocks.whileStatement (hw : 4 * n + 3 < fuel) :
    ReadsBlocks T n (Grammar.whileStatement (Rule.parse fuel)) := by
  refine .advance hT fun s k m hm => ?_
  have hw' : 4 * m + 3 < fuel := by omega
  refine (Passages.within hT .test hw').bind fun condition => ?_
  refine (Passages.suite hT hcall hw').bind fun body => ?_
  refine (Passages.suiteAfter hT hcall .else hw').bind fun other => ?_
  refine .addNode (fun h => by cases h) (fun c hc => ?_) (Nat.le_refl _)
    s.current.range.start_le_stop s.current.range.start_le_stop
  simp only [Form.children, List.mem_cons, List.mem_append] at hc ⊢
  tauto

/-- A loop over the items of a value is read from its keyword on. -/
theorem Passage.forStatement {asyncStart : Option Nat} (h : Passage T B true [] s)
    (hwritten : s.current.lexeme.IsWritten) (hw : 4 * B.room + 3 < fuel)
    (hlo : B.state.current.start ≤ asyncStart.getD s.current.start)
    (hfirst : asyncStart.getD s.current.start ≤ B.first) :
    Passage T B false [((Grammar.forStatement (Rule.parse fuel) asyncStart).run s).1]
      ((Grammar.forStatement (Rule.parse fuel) asyncStart).run s).2 := by
  unfold Grammar.forStatement
  refine h.advance hT hwritten ([·]) ?_
  refine (Passages.within hT .targetList hw).bind fun target => ?_
  refine (Passages.within hT (.tookKeyword .in) hw).bind fun found => ?_
  extract_lets rest
  have hrest : ∀ iterable : NodeId, Passages T B true [iterable, target] (rest iterable) false
      fun id => [id] := by
    intro iterable
    refine (Passages.suite hT hcall hw).bind fun body => ?_
    refine (Passages.suiteAfter hT hcall .else hw).bind fun other => ?_
    refine .addNode (fun h => by cases h) (fun c hc => ?_) hlo hfirst hfirst
    simp only [Form.children, List.mem_cons, List.mem_append] at hc ⊢
    tauto
  refine .ite ((Passages.within hT .testList hw).bind hrest) ?_
  refine (Passages.within hT (.fault _) hw).bind fun _ => ?_
  exact (Passages.within hT (.errorNode _) hw).bind hrest

/-! ## Exceptions and managed values -/

/-- What is done on some exceptions may be read. -/
theorem Passages.exceptClause (hw : 4 * B.room + 3 < fuel) :
    Passages T B false roots (Grammar.exceptClause (Rule.parse fuel)) false
      fun id => id.toList ++ roots := by
  refine own hT Option.toList fun s k hs _ hroom => ?_
  unfold Grammar.exceptClause
  cases hfits : s.current.keyword? == some .except with
  | false =>
    have hconsume : (consumeKeyword .except).run s = (none, s) := by
      show (advanceIf (s.current.keyword? == some .except)).run s = _
      rw [hfits]
      rfl
    rw [run_bind_of hconsume]
    exact ⟨k, _, .begin hs (fun h => absurd h Bool.false_ne_true) hroom⟩
  | true =>
    have hconsume : (consumeKeyword .except).run s = (some s.current, advanced s) := by
      show (advanceIf (s.current.keyword? == some .except)).run s = _
      rw [hfits]
      rfl
    rw [run_bind_of hconsume]
    refine Passage.led hT hs (Token.isWritten_of_keyword? (eq_of_beq hfits)) hroom Option.toList
      fun m hm => ?_
    have hw' : 4 * m + 3 < fuel := by omega
    refine (Passages.read fun _ => rfl).bind fun bare => ?_
    extract_lets rest
    have hrest : ∀ names : Option NodeId × Option NodeId,
        Passages T ⟨s, k, s.current.stop, m⟩ true (names.2.toList ++ names.1.toList) (rest names)
          false Option.toList := by
      intro names
      refine (Passages.suite hT hcall hw').bind fun body => ?_
      refine Passages.bind (Passages.addNode (fun h => by cases h) (fun c hc => ?_) (Nat.le_refl _)
        s.current.range.start_le_stop (Nat.le_refl _)) fun _ => .ret (fun _ => id) id
      simp only [Form.children, List.mem_cons, List.mem_append] at hc ⊢
      tauto
    refine .ite (hrest (none, none)) ((Passages.within hT .test hw').bind fun expression => ?_)
    exact (Passages.within hT (.nameAfter _ _) hw').bind fun title => hrest (some expression, title)

/-- A block that may fail is read. -/
theorem ReadsBlocks.tryStatement (hw : 4 * n + 3 < fuel) :
    ReadsBlocks T n (Grammar.tryStatement (Rule.parse fuel)) := by
  refine .advance hT fun s k m hm => ?_
  have hw' : 4 * m + 3 < fuel := by omega
  refine (Passages.suite hT hcall hw').bind fun body => ?_
  refine (Passages.manyNodes fun _ => Passages.exceptClause hT hcall hw').bind fun clauses => ?_
  extract_lets rest
  have hrest : ∀ other : Option NodeId,
      Passages T ⟨s, k, s.current.stop, m⟩ false (other.toList ++ (clauses ++ [body])) (rest other)
        false fun id => [id] := by
    intro other
    refine (Passages.suiteAfter hT hcall .finally hw').bind fun final => ?_
    have hnode : Passages T ⟨s, k, s.current.stop, m⟩ false
        (final.toList ++ (other.toList ++ (clauses ++ [body])))
        (addNode s.current.start s.current.start (.tryExcept body clauses other final)) false
        fun id => [id] := by
      refine .addNode (fun h => by cases h) (fun c hc => ?_) (Nat.le_refl _)
        s.current.range.start_le_stop s.current.range.start_le_stop
      simp only [Form.children, List.mem_cons, List.mem_append] at hc ⊢
      tauto
    exact .ite ((Passages.fault hT _).bind fun _ => hnode) hnode
  exact .ite (hrest none) ((Passages.suiteAfter hT hcall .else hw').bind hrest)

/-- A block with managed values is read from its keyword on. -/
theorem Passage.withStatement {asyncStart : Option Nat} (h : Passage T B true [] s)
    (hwritten : s.current.lexeme.IsWritten) (hw : 4 * B.room + 3 < fuel)
    (hlo : B.state.current.start ≤ asyncStart.getD s.current.start)
    (hfirst : asyncStart.getD s.current.start ≤ B.first) :
    Passage T B false [((Grammar.withStatement (Rule.parse fuel) asyncStart).run s).1]
      ((Grammar.withStatement (Rule.parse fuel) asyncStart).run s).2 := by
  unfold Grammar.withStatement
  refine h.advance hT hwritten ([·]) ?_
  refine (Passages.within hT .withItems hw).bind fun items => ?_
  refine (Passages.suite hT hcall hw).bind fun body => ?_
  refine .addNode (fun h => by cases h) (fun c hc => ?_) hlo hfirst hfirst
  simp only [Form.children, List.mem_cons, List.mem_append, id] at hc ⊢
  tauto

/-! ## Definitions -/

omit hcall in
/-- A function without a parameter list is an error. -/
theorem Passage.functionWithoutParameters {title : NodeId} (h : Passage T B true roots s)
    (hw : 4 * B.room + 3 < fuel) (htitle : title ∈ roots)
    (hnone : ∀ x, s.arena.kind? x = some .suite → B.state.arena.kind? x = some .suite) :
    Passage T B false [((Grammar.functionWithoutParameters title).run s).1]
      ((Grammar.functionWithoutParameters title).run s).2 := by
  have hfault := Passages.fault hT (.spelling "(") s h
  have harena := (same_fault (.spelling "(") s).arena
  have herror := hfault.errorNode .missingFunctionParameterList htitle (harena ▸ hnone)
  have hfirst : B.first ≤ ((fault (.spelling "(")).run s).2.current.start := by
    obtain ⟨k, opens, hk⟩ := hfault
    exact hk.first
  have hskip : ∀ error, Passages T
      ⟨B.state, B.place, ((fault (.spelling "(")).run s).2.current.start, B.room⟩ true [error]
      (skipToEndOfLine >>= fun _ => pure error) false fun id => [id] := by
    refine fun error => Passages.bind (Passages.within hT .skipToEndOfLine hw) fun _ => ?_
    exact .ret (fun _ => id) fun h => absurd h Bool.false_ne_true
  exact (hskip _ _ herror).weaken hfirst (Nat.le_refl _)

/-- A function is read behind its parenthesis. -/
theorem Passages.functionRest {start : Nat} {decorators : List NodeId} {isAsync : Bool}
    {title : NodeId} (hw : 4 * B.room + 3 < fuel) (hlo : B.state.current.start ≤ start)
    (hfirst : start ≤ B.first) :
    Passages T B true (title :: decorators)
      (Grammar.functionRest (Rule.parse fuel) start decorators isAsync title) false
      fun id => [id] := by
  unfold Grammar.functionRest
  refine (Passages.within hT (.parameterList _ _) hw).bind fun parameters => ?_
  refine (Passages.within hT (.expect rfl _) hw).bind fun _ => ?_
  refine (Passages.within hT (.took rfl) hw).bind fun arrow => ?_
  extract_lets rest
  have hrest : ∀ hint : Option NodeId, Passages T B true
      (hint.toList ++ (parameters ++ title :: decorators)) (rest hint) false fun id => [id] := by
    intro hint
    refine (Passages.suite hT hcall hw).bind fun body => ?_
    refine .addNode (fun h => by cases h) (fun c hc => ?_) hlo hfirst hfirst
    simp only [Form.children, List.mem_cons, List.mem_append] at hc ⊢
    tauto
  exact .ite ((Passages.within hT .test hw).bind fun hint => hrest (some hint)) (hrest none)

/-- A function is read behind its keyword. -/
theorem Passage.functionFrom {start : Nat} {decorators : List NodeId} {isAsync : Bool}
    (h : Passage T B true decorators s) (hw : 4 * B.room + 3 < fuel)
    (hlo : B.state.current.start ≤ start) (hfirst : start ≤ B.first) :
    Passage T B false
      [((Grammar.functionFrom (Rule.parse fuel) start decorators isAsync).run s).1]
      ((Grammar.functionFrom (Rule.parse fuel) start decorators isAsync).run s).2 := by
  rw [Grammar.functionFrom_eq]
  have hname := Passages.within hT (.name .functionName) hw s h
  generalize hn : (Parser.name .functionName).run s = r at hname
  obtain ⟨title, u⟩ := r
  rw [run_bind_of hn]
  by_cases hparenthesis : u.current.kind = .openParenthesis
  · rw [run_bind_of (run_took_of_kind hparenthesis)]
    have hwritten : u.current.lexeme.IsWritten := by
      refine Token.isWritten_of_not_isLayout ?_ (by rw [hparenthesis]; decide)
      rintro (hkind | hkind | hkind) <;> cases hparenthesis.symm.trans hkind
    exact Passages.functionRest hT hcall hw hlo hfirst _ (hname.advanced hT
      (by rw [hparenthesis]; decide) fun _ => hwritten)
  · rw [run_bind_of (run_took_of_ne hparenthesis)]
    refine (h.append hT fun k hs hline hroom => ?_).mono (fun _ => List.mem_append_left _) id
    -- Seen from the name on, there is no suite yet.
    have hown := Passages.run_line hT (.name .functionName) hw hs (hline rfl) hroom
      fun h => absurd h Bool.false_ne_true
    have hkeep := (Keeps.name (R := Course.along hT) .functionName s).2
    rw [hn] at hown hkeep
    exact hown.functionWithoutParameters hT hw (List.mem_singleton_self _) hkeep

/-- A function definition is read from its keyword on. -/
theorem Passage.functionDefinition {decorators : List NodeId} {asyncStart : Option Nat}
    {line : Bool} (h : Passage T B line decorators s) (hwritten : s.current.lexeme.IsWritten)
    (hw : 4 * B.room + 3 < fuel) (hlo : B.state.current.start ≤ asyncStart.getD s.current.start)
    (hfirst : asyncStart.getD s.current.start ≤ B.first) :
    Passage T B false
      [((Grammar.functionDefinition (Rule.parse fuel) decorators asyncStart).run s).1]
      ((Grammar.functionDefinition (Rule.parse fuel) decorators asyncStart).run s).2 :=
  h.advance hT hwritten ([·]) fun _ ht => ht.functionFrom hT hcall hw hlo hfirst

/-- A class definition is read from its keyword on. -/
theorem Passage.classDefinition {decorators : List NodeId} {line : Bool}
    (h : Passage T B line decorators s) (hwritten : s.current.lexeme.IsWritten)
    (hw : 4 * B.room + 3 < fuel) (hlo : B.state.current.start ≤ s.current.start)
    (hfirst : s.current.start ≤ B.first) :
    Passage T B false [((Grammar.classDefinition (Rule.parse fuel) decorators).run s).1]
      ((Grammar.classDefinition (Rule.parse fuel) decorators).run s).2 := by
  unfold Grammar.classDefinition
  refine h.advance hT hwritten ([·]) ?_
  refine (Passages.within hT (.name _) hw).bind fun title => ?_
  refine (Passages.within hT (.took rfl) hw).bind fun parenthesis => ?_
  extract_lets rest
  have hrest : ∀ arguments : List NodeId, Passages T B true (arguments ++ title :: decorators)
      (rest arguments) false fun id => [id] := by
    intro arguments
    refine (Passages.suite hT hcall hw).bind fun body => ?_
    refine .addNode (fun h => by cases h) (fun c hc => ?_) hlo hfirst hfirst
    simp only [Form.children, List.mem_cons, List.mem_append] at hc ⊢
    tauto
  refine .ite ((Passages.within hT .argumentList hw).bind fun arguments => ?_) (hrest [])
  exact (Passages.within hT (.expect rfl _) hw).bind fun _ => hrest arguments

omit hcall in
/-- A decorator and its line may be read. -/
theorem Passages.decorator (hw : 4 * B.room + 3 < fuel) :
    Passages T B false roots (Grammar.decorator (Rule.parse fuel)) false
      fun id => id.toList ++ roots := by
  refine own hT Option.toList fun s k hs _ hroom => ?_
  unfold Grammar.decorator
  cases hfits : s.current.operator? == some .matrixMultiply with
  | false =>
    have hconsume : (consumeOperator .matrixMultiply).run s = (none, s) := by
      show (advanceIf (s.current.operator? == some .matrixMultiply)).run s = _
      rw [hfits]
      rfl
    rw [run_bind_of hconsume]
    exact ⟨k, _, .begin hs (fun h => absurd h Bool.false_ne_true) hroom⟩
  | true =>
    have hconsume : (consumeOperator .matrixMultiply).run s = (some s.current, advanced s) := by
      show (advanceIf (s.current.operator? == some .matrixMultiply)).run s = _
      rw [hfits]
      rfl
    rw [run_bind_of hconsume]
    refine Passage.led hT hs (Token.isWritten_of_operator? (eq_of_beq hfits)) hroom Option.toList
      fun m hm => ?_
    have hw' : 4 * m + 3 < fuel := by omega
    refine (Passages.read fun _ => rfl).bind fun empty => ?_
    extract_lets rest
    have hrest : ∀ expression : NodeId, Passages T ⟨s, k, s.current.stop, m⟩ true [expression]
        (rest expression) false Option.toList := by
      intro expression
      have hnode : Passages T ⟨s, k, s.current.stop, m⟩ true [expression]
          (Parser.node s.current.start (.decorator expression)) true fun id => [id] :=
        .node (fun h => by cases h) (fun _ hc => hc) (Nat.le_refl _) s.current.range.start_le_stop
      refine hnode.bind fun decorator => ?_
      have hend : Passages T ⟨s, k, s.current.stop, m⟩ true [decorator]
          (Parser.consume .newLine >>= fun _ => pure (some decorator)) false Option.toList :=
        (Passages.consume hT (by decide)).bind fun _ => .ret (fun _ => id) id
      refine (Passages.read fun _ => rfl).bind fun atEnd => .ite ?_ hend
      refine (Passages.within hT (.fault _) hw').bind fun _ => ?_
      exact (Passages.within hT .skipToEndOfLine hw').bind fun _ => hend
    refine .ite ((Passages.within hT (.fault _) hw').bind fun _ => ?_)
      ((Passages.within hT .test hw').bind hrest)
    exact (Passages.within hT (.errorNode _) hw').bind hrest

omit hT hcall in
/-- A keyword after the next token is the next token when that has been taken. -/
theorem Parser.isWritten_second {keyword : Keyword} (hkind : s.current.kind ≠ .endOfStream)
    (hsecond : (s.following.headD s.current).keyword? = some keyword) :
    (advanced s).current.lexeme.IsWritten := by
  have hcurrent : (advanced s).current = s.following.headD s.current := by
    unfold advanced
    split
    · rename_i hnil
      rw [hnil]
      rfl
    · rename_i hcons
      rw [if_neg hkind, hcons]
      rfl
  rw [hcurrent]
  exact Token.isWritten_of_keyword? hsecond

/-- A function definition is read from the word before its keyword on. -/
theorem Passage.asyncFunction {decorators : List NodeId} {line : Bool}
    (h : Passage T B line decorators s) (hfirst : s.current.keyword? = some .async)
    (hsecond : (s.following.headD s.current).keyword? = some .define)
    (hw : 4 * B.room + 3 < fuel) (hlo : B.state.current.start ≤ s.current.start)
    (hstart : s.current.start ≤ B.first) :
    Passage T B false
      [((Grammar.functionDefinition (Rule.parse fuel) decorators (some s.current.start)).run
        (Parser.advanced s)).1]
      ((Grammar.functionDefinition (Rule.parse fuel) decorators (some s.current.start)).run
        (Parser.advanced s)).2 := by
  have hwritten := Token.isWritten_of_keyword? hfirst
  have hplain := Token.not_isLayout hwritten
  have hkind : s.current.kind ≠ .endOfStream := fun hkind => by
    rw [Token.kind_eq_endOfStream.1 hkind] at hwritten
    exact hwritten
  have hnext : Passage T B true decorators (Parser.advanced s) :=
    h.advanced hT (fun hdedent => hplain (.inr (.inr hdedent))) fun _ => hwritten
  exact hnext.functionDefinition hT hcall (isWritten_second hkind hsecond) hw hlo hstart

/-- What stands behind decorators is read. -/
theorem Passage.definitionAfter {decorators : List NodeId} (h : Passage T B false decorators s)
    (hw : 4 * B.room + 3 < fuel) (hlo : B.state.current.start ≤ s.current.start)
    (hfirst : s.current.start ≤ B.first) :
    Passage T B false [((Grammar.definitionAfter (Rule.parse fuel) decorators).run s).1]
      ((Grammar.definitionAfter (Rule.parse fuel) decorators).run s).2 := by
  have hrun : (Grammar.definitionAfter (Rule.parse fuel) decorators).run s =
      (if s.current.keyword? == some .define then
        Grammar.functionDefinition (Rule.parse fuel) decorators none
      else if s.current.keyword? == some .class then
        Grammar.classDefinition (Rule.parse fuel) decorators
      else if s.current.keyword? == some .async &&
          (s.following.headD s.current).keyword? == some .define then do
        let token ← Parser.advance
        Grammar.functionDefinition (Rule.parse fuel) decorators (some token.start)
      else do
        Parser.fault .decoratedDefinition
        let range := decorators.head?.bind (← get).arena.range?
        let start := (range.map (·.start)).getD (← currentStart)
        Parser.addNode start start (.statementList decorators)).run s := rfl
  rw [hrun]
  split_ifs with hdefine hclass hasync
  · exact h.functionDefinition hT hcall (Token.isWritten_of_keyword? (eq_of_beq hdefine)) hw hlo
      hfirst
  · exact h.classDefinition hT hcall (Token.isWritten_of_keyword? (eq_of_beq hclass)) hw hlo hfirst
  · rw [Bool.and_eq_true, beq_iff_eq, beq_iff_eq] at hasync
    rw [run_advance_bind]
    exact h.asyncFunction hT hcall hasync.1 hasync.2 hw hlo hfirst
  · -- The decorators become the children of a node that starts at the first one.
    obtain ⟨k, opens, hk⟩ := h.same hT (same_fault .decoratedDefinition s)
    have hcurrent := (same_fault .decoratedDefinition s).current
    generalize hfault : ((fault .decoratedDefinition).run s).2 = t at hk hcurrent
    suffices hadd : ∀ start,
        start = ((decorators.head?.bind t.arena.range?).map TextRange.start).getD t.current.start →
        B.state.current.start ≤ start ∧ start ≤ B.first by
      subst hfault
      obtain ⟨hlow, hhigh⟩ := hadd _ rfl
      exact Passages.addNode (fun h => by cases h) (fun _ hc => hc) hlow hhigh hhigh _
        ⟨k, opens, hk⟩
    rintro start rfl
    cases hrange : decorators.head?.bind t.arena.range? with
    | none =>
      show _ ≤ t.current.start ∧ t.current.start ≤ _
      rw [hcurrent]
      exact ⟨hlo, hfirst⟩
    | some r =>
      obtain ⟨decorator, hmem, hr⟩ := Option.bind_eq_some_iff.1 hrange
      obtain ⟨-, r', hr', hlow, hhigh⟩ :=
        hk.region.spans decorator (List.mem_of_mem_head? hmem) decorator .refl
      obtain rfl := Option.some.inj (hr.symm.trans hr')
      rw [hcurrent] at hhigh
      exact ⟨hlow, Nat.le_trans r.start_le_stop (Nat.le_trans hhigh hfirst)⟩

/-- A decorated definition is read. -/
theorem ReadsBlocks.decorated (hw : 4 * n + 3 < fuel) :
    ReadsBlocks T n (Grammar.decorated (Rule.parse fuel)) := by
  intro s k hs hwritten hroom
  have hmany : Passage T (s.origin k n) false _ _ :=
    Passages.manyNodes (fun _ => Passages.decorator hT hw) s
      ⟨k, _, .begin hs (fun h => absurd h Bool.false_ne_true) hroom⟩
  have hrules := Rule.parse_keep (R := Course.along hT) (fun _ => trivial) fuel
  have hkeep := (Keeps.many (Keeps.decorator hrules) s).2
  rw [Grammar.decorated_eq]
  generalize hrun : (many (Grammar.decorator (Rule.parse fuel))).run s = r at hmany hkeep
  obtain ⟨decorators, t⟩ := r
  rw [run_bind_of hrun]
  have hfirst : s.current.start ≤ t.current.start := by
    obtain ⟨j, opens, hj⟩ := hmany
    exact hj.first
  have hraised := (hmany.mono (fun _ => List.mem_append_left []) id).raise hkeep
  exact (hraised.definitionAfter hT hcall hw hfirst (Nat.le_refl _)).weaken hfirst (Nat.le_refl _)

/-! ## All statements -/

/-- An asynchronous definition or block is read. -/
theorem Passage.asyncStatement (hs : s.At T k) (hfirst : s.current.keyword? = some .async)
    (hroom : s.following.length ≤ n) (hw : 4 * n + 3 < fuel) :
    Passage T (s.origin k n) false [((Grammar.asyncStatement (Rule.parse fuel)).run s).1]
      ((Grammar.asyncStatement (Rule.parse fuel)).run s).2 := by
  have hwritten := Token.isWritten_of_keyword? hfirst
  have hplain := Token.not_isLayout hwritten
  have hkind : s.current.kind ≠ .endOfStream := fun hkind => by
    rw [Token.kind_eq_endOfStream.1 hkind] at hwritten
    exact hwritten
  have hbegin : Passage T (s.origin k n) true [] s := .begin hs hwritten hroom
  have hnext : Passage T (s.origin k n) true [] (Parser.advanced s) :=
    hbegin.advanced hT (fun hdedent => hplain (.inr (.inr hdedent))) fun _ => hwritten
  have hfallback : Passage T (s.origin k n) false
      [((do Parser.fault .asyncAlone; Grammar.statementList (Rule.parse fuel)).run s).1]
      ((do Parser.fault .asyncAlone; Grammar.statementList (Rule.parse fuel)).run s).2 := by
    have hsame := same_fault .asyncAlone s
    have hends : endsLine ((Parser.fault .asyncAlone).run s).2.current.kind = false := by
      rw [hsame.current]
      exact Token.endsLine_of_isWritten hwritten
    have hlist := (hbegin.same hT hsame).append hT fun j hj hline hroom =>
      Passage.statementList hT hw hj (hline rfl) hroom hends
    rwa [List.append_nil] at hlist
  unfold Grammar.asyncStatement
  rw [run_peekSecond_bind]
  split
  · rename_i hsecond
    rw [run_advance_bind]
    exact hbegin.asyncFunction hT hcall hfirst hsecond hw (Nat.le_refl _) (Nat.le_refl _)
  · rename_i hsecond
    rw [run_advance_bind]
    exact hnext.forStatement hT hcall (isWritten_second hkind hsecond) hw (Nat.le_refl _)
      (Nat.le_refl _)
  · rename_i hsecond
    rw [run_advance_bind]
    exact hnext.withStatement hT hcall (isWritten_second hkind hsecond) hw (Nat.le_refl _)
      (Nat.le_refl _)
  · exact hfallback

/-- A statement is read, of whatever kind. -/
theorem ReadsBlocks.statement (hw : 4 * n + 3 < fuel) :
    ReadsBlocks T n (Grammar.statement (Rule.parse fuel)) := by
  intro s k hs hwritten hroom
  have hbegin : Passage T (s.origin k n) true [] s := .begin hs hwritten hroom
  have hline := Passage.statementList hT hw hs (hs.inLine hwritten) hroom
    (Token.endsLine_of_isWritten hwritten)
  have hstart := Nat.le_refl s.current.start
  unfold Grammar.statement
  rw [run_peek_bind]
  split
  · exact hbegin.functionDefinition hT hcall hwritten hw hstart hstart
  · exact hbegin.classDefinition hT hcall hwritten hw hstart hstart
  · exact ReadsBlocks.ifStatement hT hcall (by omega) s k hs hwritten hroom
  · exact ReadsBlocks.whileStatement hT hcall hw s k hs hwritten hroom
  · exact hbegin.forStatement hT hcall hwritten hw hstart hstart
  · exact ReadsBlocks.tryStatement hT hcall hw s k hs hwritten hroom
  · exact hbegin.withStatement hT hcall hwritten hw hstart hstart
  · rename_i hasync
    refine Passage.asyncStatement hT hcall hs ?_ hroom hw
    unfold Token.keyword?
    rw [hasync]
  · exact ReadsBlocks.decorated hT hcall hw s k hs hwritten hroom
  · exact hline

end Rules

/-- All rules read statements with the blocks in them. -/
theorem RulesPassage.parse {length : Nat} {T : List Token} (hT : Tape length T) (fuel : Nat) :
    RulesPassage T fuel := by
  induction fuel with
  | zero =>
    exact ⟨fun _ hn => absurd hn (Nat.not_lt_zero _), fun _ hn => absurd hn (Nat.not_lt_zero _)⟩
  | succ fuel ih =>
    exact ⟨fun _ hn => .statement hT ih (by omega), fun _ hn => .ifStatement hT ih (by omega)⟩

end TypeProbe
