import TypeProbe.Proofs.Tree.Building

/-!
# What the steps of the parsers build

One rule for each step that the grammar is written with: looking at tokens and taking them, noting
faults, adding nodes, and repeating what builds nodes. A step that takes a token puts on the stack
where it starts and where it stops (`taken`).
-/

open TypeProbe.Parser

namespace TypeProbe

/-! ## The nodes after a step -/

namespace Parser

/-- Taking a token on a condition leaves the nodes. -/
theorem arena_advanceIf (fits : Bool) (s : ParseState) :
    ((advanceIf fits).run s).2.arena = s.arena := by
  cases fits with
  | false => rfl
  | true => exact arena_advanced s

/-- Noting a fault leaves the nodes. -/
theorem arena_fault (f : SyntaxFault) (s : ParseState) : ((fault f).run s).2.arena = s.arena := by
  show (if _ then s else _ : ParseState).arena = _
  split <;> rfl

/-- Taking a token of a kind leaves the nodes. -/
theorem arena_took (kind : TokenKind) (s : ParseState) : ((took kind).run s).2.arena = s.arena :=
  arena_advanceIf (s.current.kind == kind) s

/-- A name is the next new node. -/
theorem run_name (missing : SyntaxFault) (s : ParseState) :
    ∃ start stop token value, ((Parser.name missing).run s).1 = s.arena.size ∧
      ((Parser.name missing).run s).2.arena = (s.arena.add start stop (.name token value)).2 := by
  have harena := arena_advanceIf (s.current.kind == .identifier) s
  unfold Parser.name
  rw [StateT.run_bind]
  change ((consume .identifier).run s).2.arena = s.arena at harena
  generalize (consume .identifier).run s = found at harena ⊢
  obtain ⟨token, s'⟩ := found
  have hnode : ∀ token (s' : ParseState), s'.arena = s.arena →
      ∃ start stop token' value, ((nameNode token).run s').1 = s.arena.size ∧
        ((nameNode token).run s').2.arena = (s.arena.add start stop (.name token' value)).2 := by
    intro token s' harena
    rw [← harena]
    exact ⟨_, _, _, _, rfl, rfl⟩
  cases token with
  | some token => exact hnode token s' harena
  | none => exact hnode _ _ ((arena_fault missing s').trans harena)

end Parser

namespace Builds

variable {α β : Type} {length n : Nat} {L : List Item}

/-- The stack after a token that may have been taken: its start and its stop are noted. -/
def taken : Option Token → List Item → List Item
  | none, L => L
  | some t, L => .mark t.stop :: .mark t.start :: L

/-- The stack after something that may have been read, and how the stack grows by it. -/
def after (grow : α → List Item → List Item) (L : List Item) : Option α → List Item
  | none => L
  | some a => grow a L

/-- The stack after a node that may have been built. -/
abbrev built (id : Option NodeId) (L : List Item) : List Item :=
  after (fun id L => .node id :: L) L id

/-- A node that may have been built is put on the stack as the list of it. -/
theorem built_eq (id : Option NodeId) (L : List Item) : built id L = pushed id.toList L := by
  cases id <;> rfl

/-! ## Tokens -/

/-- The next token may be looked at; its start is noted. -/
theorem peek : Builds length L peek fun t => .mark t.start :: L :=
  fun _ h => h.mark (Nat.le_refl _) h.laid

/-- The next token may be looked at. -/
theorem look : Builds length L Parser.peek fun _ => L := read fun _ => rfl

/-- Where the next token starts may be noted. -/
theorem currentStart : Builds length L currentStart fun n => .mark n :: L :=
  fun _ h => h.mark (Nat.le_refl _) h.laid

/-- The next token may be taken; its start and its stop are noted. -/
theorem advance : Builds length L advance fun t => .mark t.stop :: .mark t.start :: L := by
  intro s h
  have hstart := h.mark (Nat.le_refl _) h.laid
  have hstop := h.cursor.advanced.2
  refine hstart.advanced.mark hstop ?_
  rw [arena_advanced]
  exact ⟨s.current.range.start_le_stop, h.laid⟩

/-- The next token may be taken; its start is noted. -/
theorem advanceFrom : Builds length L Parser.advance fun t => .mark t.start :: L :=
  fun _ h => (h.mark (Nat.le_refl _) h.laid).advanced

/-- The next token may be taken. -/
theorem advancePast : Builds length L Parser.advance fun _ => L := fun _ h => h.advanced

/-- The next token may be taken on a condition. -/
theorem advanceIf (fits : Bool) : Builds length L (advanceIf fits) fun t => taken t L :=
  ite (advance.bind fun _ => ret rfl) (ret rfl)

/-- The next token may be taken on a condition, wherever it stands. -/
theorem advanceIfPast (fits : Bool) : Builds length L (Parser.advanceIf fits) fun _ => L :=
  ite (advancePast.bind fun _ => ret rfl) (ret rfl)

/-- A token of a kind may be taken. -/
theorem consume (kind : TokenKind) : Builds length L (consume kind) fun t => taken t L :=
  (read fun _ => rfl).bind fun fits => advanceIf fits

/-- A token of a kind may be taken, wherever it stands. -/
theorem consumePast (kind : TokenKind) : Builds length L (Parser.consume kind) fun _ => L :=
  (read fun _ => rfl).bind fun fits => advanceIfPast fits

/-- A keyword may be taken. -/
theorem consumeKeyword (keyword : Keyword) :
    Builds length L (consumeKeyword keyword) fun t => taken t L :=
  (read fun _ => rfl).bind fun fits => advanceIf fits

/-- An operator may be taken. -/
theorem consumeOperator (op : Operator) : Builds length L (consumeOperator op) fun t => taken t L :=
  (read fun _ => rfl).bind fun fits => advanceIf fits

/-- Where a token was taken need not be known. -/
theorem isSome {p : Parser (Option Token)} (hp : Builds length L p fun t => taken t L) :
    Builds length L (do return (← p).isSome) fun _ => L := by
  refine hp.bind fun t => ?_
  cases t with
  | none => exact ret rfl
  | some t => exact forget (forget (ret rfl))

/-- A token of a kind may be taken. -/
theorem took (kind : TokenKind) : Builds length L (took kind) fun _ => L := isSome (consume kind)

/-- A keyword may be taken. -/
theorem tookKeyword (keyword : Keyword) : Builds length L (tookKeyword keyword) fun _ => L :=
  isSome (consumeKeyword keyword)

/-- An operator may be taken. -/
theorem tookOperator (op : Operator) : Builds length L (tookOperator op) fun _ => L :=
  isSome (consumeOperator op)

/-- The rest of a line may be passed over. -/
theorem skipToEndOfLine : Builds length L skipToEndOfLine fun _ => L := by
  have hskipped : ∀ fuel s, Holds length L s → Holds length L (skippedLine fuel s) := by
    intro fuel
    induction fuel with
    | zero => exact fun s h => h
    | succ fuel ih =>
      intro s h
      unfold skippedLine
      split
      · exact h
      · exact ih _ h.advanced
  exact fun s h => hskipped s.following.length s h

/-- A fault may be noted. -/
theorem faultAt (range : TextRange) (f : SyntaxFault) :
    Builds length L (faultAt range f) fun _ => L := by
  intro s h
  show Holds length L (if _ then s else _)
  split
  · exact h
  · exact h.same rfl rfl rfl rfl rfl

/-- A fault at the next token may be noted. -/
theorem fault (f : SyntaxFault) : Builds length L (fault f) fun _ => L :=
  look.bind fun t => faultAt t.range f

/-- A token may be asked for. -/
theorem expect (kind : TokenKind) (spelling : String) :
    Builds length L (expect kind spelling) fun _ => L := by
  refine (took kind).bind fun found => ?_
  exact ite (ret rfl) ((fault _).bind fun _ => ret rfl)

/-! ## Nodes -/

section Nodes

variable {start stop : Nat} {form : Form} {S : List Item} {token : Token}

/-- A node may be added that stops before the next token; what is on the stack is, without some
offsets, its children above its start. -/
theorem addNode (hS : ∀ s, Holds length S s → stop ≤ s.current.start ∧
      Holds length (pushed form.children (.mark start :: L)) s)
    (hplain : ∀ t, form ≠ .error .missingFunctionParameterList (some t)) :
    Builds length S (addNode start stop form) fun id => .ofForm form id :: L := by
  intro s h
  obtain ⟨hstop, hholds⟩ := hS s h
  exact hholds.add hstop hplain

/-- A node may be added that reaches to the last token, or to its last child. -/
theorem node (hS : pushed form.children (.mark start :: L) = S)
    (hplain : ∀ t, form ≠ .error .missingFunctionParameterList (some t)) :
    Builds length S (node start form) fun id => .ofForm form id :: L := by
  intro s h
  subst hS
  exact h.add h.cursor.previous hplain

/-- A node may be added that reaches to the last token, or to its start. -/
theorem nodeBeyond (hS : pushed form.children (.mark start :: L) = S)
    (hplain : ∀ t, form ≠ .error .missingFunctionParameterList (some t)) :
    Builds length S (do Parser.addNode start (max (← previousStop) start) form)
      fun id => .ofForm form id :: L := by
  intro s h
  subst hS
  refine h.add (Nat.max_le.2 ⟨h.cursor.previous, h.laid.mark_le ?_⟩) hplain
  rw [pushed, put_eq]
  exact List.mem_append_right _ List.mem_cons_self

/-- A node may be added that reaches over its first token and its children. -/
theorem nodeAfter (hS : pushed form.children (.mark stop :: .mark start :: L) = S)
    (hplain : ∀ t, form ≠ .error .missingFunctionParameterList (some t)) :
    Builds length S (Parser.addNode start stop form) fun id => .ofForm form id :: L := by
  subst hS
  refine addNode (fun s h => ?_) hplain
  rw [pushed, put_eq] at h ⊢
  exact ⟨h.laid.mark_le (List.mem_append_right _ List.mem_cons_self), h.under _⟩

/-- A node may be added that reaches from its start to its last child. -/
theorem nodeOver (hS : pushed form.children (.mark start :: L) = S)
    (hplain : ∀ t, form ≠ .error .missingFunctionParameterList (some t)) :
    Builds length S (Parser.addNode start start form) fun id => .ofForm form id :: L := by
  subst hS
  refine addNode (fun s h => ⟨h.laid.mark_le ?_, h⟩) hplain
  rw [pushed, put_eq]
  exact List.mem_append_right _ List.mem_cons_self

/-- A node may be added that reaches from its first decorator, or its start, to its last child. -/
theorem nodeDecorated (decorators ids : List NodeId)
    (hS : pushed ids (.mark start :: decorated decorators (.mark n :: L)) = S)
    (hchildren : form.children = decorators ++ ids)
    (hplain : ∀ t, form ≠ .error .missingFunctionParameterList (some t)) :
    Builds length S (Parser.addNode start start form) fun id => .ofForm form id :: L := by
  intro s h
  subst hS
  have hstart : start ≤ s.current.start := by
    refine h.laid.mark_le ?_
    rw [pushed, put_eq]
    exact List.mem_append_right _ List.mem_cons_self
  have hn : n ≤ start := by
    obtain ⟨lo, hlaid, -⟩ := h.laid.of_put .node fun _ _ _ h => h
    refine hlaid.2.mark_le ?_
    rw [decorated, put_eq]
    exact List.mem_append_right _ List.mem_cons_self
  rw [pushed, put_eq] at h
  have hunder := h.under _
  rw [← put_eq] at hunder
  exact hunder.addAbove decorators ids hchildren hn hstart hstart hplain

/-- A node without children may be added where a token stands. -/
theorem tokenNode (hchildren : form.children = [])
    (hplain : ∀ t, form ≠ .error .missingFunctionParameterList (some t)) :
    Builds length (.mark token.stop :: .mark token.start :: L) (tokenNode token form)
      fun id => .ofForm form id :: L :=
  nodeAfter (by rw [hchildren]; rfl) hplain

/-- A name may be added where a token stands. -/
theorem nameNode : Builds length (.mark token.stop :: .mark token.start :: L) (nameNode token)
    fun id => .node id :: L := tokenNode rfl nofun

/-- An error node may be added before the next token. -/
theorem errorNode (category : ErrorCategory) :
    Builds length L (errorNode category none) fun id => .node id :: L := by
  intro s h
  have hmark : Holds length (pushed (Form.error category none).children
      (.mark s.current.start :: L)) s := h.mark (Nat.le_refl _) h.laid
  exact hmark.add (Nat.max_le.2 ⟨h.cursor.previous, Nat.le_refl _⟩) nofun

/-- An error node may be added around a node. -/
theorem errorAround {category : ErrorCategory} {id : NodeId}
    (hcategory : category ≠ .missingFunctionParameterList) :
    Builds length (.node id :: L) (Parser.errorNode category (some id))
      fun id => .node id :: L := by
  intro s h
  obtain ⟨r, hr, hstop⟩ := h.exists_range [] rfl
  have hstart : (((some id).bind s.arena.range?).map (·.start)).getD s.current.start = r.start := by
    simp [hr]
  have hmark : Holds length (pushed (Form.error category (some id)).children
      (.mark r.start :: L)) s := h.markBelow [] rfl hr
  rw [← hstart] at hmark
  refine hmark.add (Nat.max_le.2 ⟨h.cursor.previous, ?_⟩) fun t ht => ?_
  · rw [hstart]
    exact Nat.le_trans r.start_le_stop hstop
  · cases ht
    exact hcategory rfl

/-- A name may be read. -/
theorem name (missing : SyntaxFault) : Builds length L (name missing) fun id => .node id :: L := by
  refine (consume .identifier).bind fun token => ?_
  cases token with
  | some token => exact nameNode
  | none =>
    refine (fault missing).bind fun _ => currentStart.bind fun start => ?_
    refine weaken (fun s h => ?_) nameNode
    exact h.mark (h.laid.mark_le List.mem_cons_self) ⟨Nat.le_refl _, h.laid.2⟩

end Nodes

/-! ## Repetition -/

section Repetition

variable {G : α → List Item → List Item} {P : List Item → Prop}

/-- How many rounds there may be need not be known. -/
theorem roundLimit : Builds length L roundLimit fun _ => L := read fun _ => rfl

/-- A step that may be made on every stack of some kind may be repeated. -/
theorem many {step : Parser (Option α)} (hgrow : ∀ a L, P L → P (G a L))
    (hstep : ∀ L, P L → Builds length L step (after G L)) (hL : P L) :
    Builds length L (many step) (List.foldl (fun L a => G a L) L) := by
  have hmany : ∀ fuel L, P L →
      Builds length L (manyAtMost step fuel) (List.foldl (fun L a => G a L) L) := by
    intro fuel
    induction fuel with
    | zero => exact fun L _ => ret rfl
    | succ fuel ih =>
      intro L hL
      refine (hstep L hL).bind fun a => ?_
      cases a with
      | none => exact ret rfl
      | some a => exact (ih _ (hgrow a L hL)).bind fun _ => ret rfl
  refine (hstep L hL).bind fun a => ?_
  cases a with
  | none => exact ret rfl
  | some a => exact roundLimit.bind fun fuel => (hmany fuel _ (hgrow a L hL)).bind fun _ => ret rfl

/-- A step that builds a node may be repeated. -/
theorem manyNodes {step : Parser (Option NodeId)}
    (hstep : ∀ L, Builds length L step (after (fun id L => .node id :: L) L)) :
    Builds length L (Parser.many step) fun ids => pushed ids L :=
  many (P := fun _ => True) (fun _ _ _ => trivial) (fun L _ => hstep L) trivial

/-- A step that builds nothing may be repeated. -/
theorem manyIdle {step : Parser (Option α)} (hstep : ∀ L, Builds length L step fun _ => L) :
    Builds length L (Parser.many step) fun _ => L := by
  have hidle : ∀ as : List α, as.foldl (fun L _ => L) L = L := fun as => by
    induction as with
    | nil => rfl
    | cons a as ih => exact ih
  have hmany : Builds length L (Parser.many step) (List.foldl (fun L _ => L) L) := by
    refine many (P := fun _ => True) (G := fun _ L => L) (fun _ _ _ => trivial)
      (fun L _ => ?_) trivial
    refine (hstep L).congr fun a => ?_
    cases a <;> rfl
  exact hmany.congr hidle

/-- A step may be repeated on its own result. -/
theorem foldMany {I : α → List Item} {step : α → Parser (Option α)} {a : α}
    (hstep : ∀ a, Builds length (I a) (step a) (after (fun b _ => I b) (I a))) :
    Builds length (I a) (foldMany a step) I := by
  have hfold : ∀ fuel a, Builds length (I a) (foldAtMost step fuel a) I := by
    intro fuel
    induction fuel with
    | zero => exact fun a => ret rfl
    | succ fuel ih =>
      intro a
      refine (hstep a).bind fun b => ?_
      cases b with
      | none => exact ret rfl
      | some b => exact ih b
  refine (hstep a).bind fun b => ?_
  cases b with
  | none => exact ret rfl
  | some b => exact roundLimit.bind fun fuel => hfold fuel b

variable {stops : Parser Bool} {item : Parser NodeId}

/-- Nodes may be read with commas between them. -/
theorem separated (hstops : ∀ L, Builds length L stops fun _ => L)
    (hitem : ∀ L, Builds length L item fun id => .node id :: L) :
    Builds length L (separated stops item) fun ids => pushed ids L := by
  have hseparated : ∀ fuel L,
      Builds length L (separatedAtMost stops item fuel) fun ids => pushed ids L := by
    intro fuel
    induction fuel with
    | zero => exact fun L => ret rfl
    | succ fuel ih =>
      intro L
      refine (hstops L).bind fun stop => ite (ret rfl) ?_
      refine (hitem L).bind fun id => (took .comma).bind fun comma => ite ?_ (ret rfl)
      exact (ih (.node id :: L)).bind fun ids => ret rfl
  exact roundLimit.bind fun fuel => hseparated fuel L

/-- Nodes may be read after a comma. -/
theorem more (hstops : ∀ L, Builds length L stops fun _ => L)
    (hitem : ∀ L, Builds length L item fun id => .node id :: L) :
    Builds length L (more stops item) fun ids => pushed ids L :=
  (took .comma).bind fun _ => ite (separated hstops hitem) (ret rfl)

end Repetition

/-- An expression may be read one level further in. -/
theorem nested {inner : Parser NodeId} (hinner : Builds length L inner fun id => .node id :: L) :
    Builds length L (nested inner) fun id => .node id :: L := by
  refine (read fun _ => rfl).bind fun s => ite ?_ ?_
  · refine (fault .tooDeep).bind fun _ => currentStart.bind fun start => ?_
    exact skipToEndOfLine.bind fun _ => nodeBeyond rfl nofun
  · refine (keep fun s h => h.same rfl rfl rfl rfl rfl).bind fun _ => hinner.bind fun id => ?_
    exact (keep fun s h => h.same rfl rfl rfl rfl rfl).bind fun _ => ret rfl

end Builds

end TypeProbe
