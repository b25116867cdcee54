import TypeProbe.Proofs.Tree.Steps

/-!
# Steps of parsers

Parsers take tokens, note faults, and add and widen nodes. A `Course` is a relation between the
states before and after a parser that each of these steps keeps to, and `Keeps R p` says that the
parser does so as a whole. Its rules follow the shapes that parsers are written in.

A node that stands in for something missing is added only where something is known to be wrong.
`Mends R p` says that a parser keeps to the relation from there on, and a parser that starts with a
fault need not do more (`Keeps.mend`).
-/

open TypeProbe.Parser

namespace TypeProbe

/-- Whether a construct is a block or holds one. -/
def Form.holdsBlock : Form → Bool
  | .module .. | .suite .. | .function .. | .classDef .. | .ifElse .. | .whileLoop .. | .forLoop ..
  | .tryExcept .. | .except .. | .withBlock .. => true
  | _ => false

/-- Whether a construct stands in for something that is missing or cannot be read: it is an error,
or a name without text. -/
def Form.standsIn : Form → Bool
  | .error .. => true
  | .name _ value => value == ""
  | _ => false

/-- What a construct says that says what a token does: it is a name with text, or a number. -/
def Form.lexeme? : Form → Option Lexeme
  | .name _ value => if value == "" then none else some (.identifier value)
  | .number literal => some (.number literal)
  | _ => none

/-- Whether a construct is an error, a name or a number, which stand in for something or say what a
token does. -/
def Form.isWord : Form → Bool
  | .error .. | .name .. | .number .. => true
  | _ => false

/-- What is no error and no word stands in for nothing. -/
theorem Form.standsIn_of_isWord {form : Form} (h : form.isWord = false) :
    form.standsIn = false := by
  cases form <;> first | rfl | cases h

/-- What is no error and no word says nothing that a token does. -/
theorem Form.lexeme?_of_isWord {form : Form} (h : form.isWord = false) : form.lexeme? = none := by
  cases form <;> first | rfl | cases h

/-- Whether a rule reads blocks. -/
def Rule.readsBlock : Rule → Bool
  | .statement | .ifStatement => true
  | _ => false

/-- A relation between an earlier state of a parser and a later one that the steps within a line
keep to. -/
structure Course where
  /-- The first state leads to the second. -/
  Leads : ParseState → ParseState → Prop
  /-- Something is known to be wrong. -/
  Faulty : ParseState → Prop
  /-- Nodes of this form may be added. -/
  Allows : Form → Prop
  /-- Nothing need be done. -/
  refl : ∀ s, Leads s s
  /-- One thing may be done after another. -/
  trans : ∀ {s t u}, Leads s t → Leads t u → Leads s u
  /-- What is wrong stays wrong. -/
  faulty : ∀ {s t}, Leads s t → Faulty s → Faulty t
  /-- A token may be taken. -/
  advanced : ∀ s, Leads s (advanced s)
  /-- A fault may be noted at the next token. -/
  fault : ∀ s f, Leads s ((Parser.fault f).run s).2
  /-- Then something is wrong. -/
  faulty_fault : ∀ s f, Faulty ((Parser.fault f).run s).2
  /-- A node may be added that stands in for nothing, unless something is wrong. -/
  add : ∀ (s : ParseState) {start stop : Nat} {form : Form}, Allows form →
    (form.standsIn = true → Faulty s) → Leads s { s with arena := (s.arena.add start stop form).2 }
  /-- Nodes that hold no block may be added, other than names with text and numbers. -/
  allows : ∀ {form : Form}, form.holdsBlock = false → form.lexeme? = none → Allows form
  /-- A name may be taken, and a node added for it. -/
  title : ∀ s : ParseState, s.current.kind = .identifier →
    Leads s ((nameNode s.current).run (Parser.advanced s)).2
  /-- A number may be taken, and a node added for it. -/
  number : ∀ (s : ParseState) (literal : NumberLiteral), s.current.lexeme = .number literal →
    Leads s ((tokenNode s.current (.number literal)).run (Parser.advanced s)).2
  /-- A node may be widened. -/
  widened : ∀ (s : ParseState) {i start stop : Nat} {owned : Bool},
    Leads s { s with arena := s.arena.widened i start stop, widenedOwned := owned }
  /-- The same may be done one level further in. -/
  deeper : ∀ {s t : ParseState}, Leads { s with depth := s.depth + 1 } t →
    Leads s { t with depth := t.depth - 1 }

/-- A parser keeps to a relation between states. -/
def Keeps {α : Type} (R : Course) (p : Parser α) : Prop := ∀ s, R.Leads s (p.run s).2

/-- A parser keeps to a relation where something is known to be wrong. -/
def Mends {α : Type} (R : Course) (p : Parser α) : Prop := ∀ s, R.Faulty s → R.Leads s (p.run s).2

namespace Keeps

variable {R : Course} {α β : Type} {p q : Parser α}

/-- A result may be returned. -/
theorem ret {a : α} : Keeps R (pure a) := R.refl

/-- A parser may be followed by another one. -/
theorem bind {f : α → Parser β} (hp : Keeps R p) (hf : ∀ a, Keeps R (f a)) : Keeps R (p >>= f) :=
  fun s => R.trans (hp s) (hf _ _)

/-- What is returned may be changed. -/
theorem map {f : α → β} (hp : Keeps R p) : Keeps R (f <$> p) := hp

/-- A parser may choose between two. -/
theorem ite {c : Prop} [Decidable c] (hp : Keeps R p) (hq : Keeps R q) :
    Keeps R (if c then p else q) := by
  split
  · exact hp
  · exact hq

/-! ## Tokens -/

/-- A parser may look at the state. -/
theorem read (hp : ∀ s, (p.run s).2 = s) : Keeps R p := fun s => by
  rw [hp]
  exact R.refl s

/-- The next token may be looked at. -/
theorem look : Keeps R peek := read fun _ => rfl

/-- The start of the next token may be looked at. -/
theorem currentStart : Keeps R currentStart := read fun _ => rfl

/-- The next token may be looked at to see how to go on. -/
theorem lookAt {f : Token → Parser β} (hf : ∀ s : ParseState, R.Leads s ((f s.current).run s).2) :
    Keeps R (peek >>= f) := hf

/-- The next two tokens may be looked at to see how to go on. -/
theorem lookFurther {f : Token → Token → Parser β}
    (hf : ∀ s : ParseState,
      R.Leads s ((f s.current (s.following.headD s.current)).run s).2) :
    Keeps R (peek >>= fun token => peekSecond >>= f token) := hf

/-- The next token may be taken. -/
theorem advance : Keeps R advance := R.advanced

/-- The next token may be taken on a condition. -/
theorem advanceIf (fits : Bool) : Keeps R (advanceIf fits) := ite (advance.bind fun _ => ret) ret

/-- A token of a kind may be taken. -/
theorem consume (kind : TokenKind) : Keeps R (consume kind) :=
  (read fun _ => rfl).bind fun _ => advanceIf _

/-- A keyword may be taken. -/
theorem consumeKeyword (keyword : Keyword) : Keeps R (consumeKeyword keyword) :=
  (read fun _ => rfl).bind fun _ => advanceIf _

/-- An operator may be taken. -/
theorem consumeOperator (op : Operator) : Keeps R (consumeOperator op) :=
  (read fun _ => rfl).bind fun _ => advanceIf _

/-- A token of a kind may be taken. -/
theorem took (kind : TokenKind) : Keeps R (took kind) := (consume kind).bind fun _ => ret

/-- A keyword may be taken. -/
theorem tookKeyword (keyword : Keyword) : Keeps R (tookKeyword keyword) :=
  (consumeKeyword keyword).bind fun _ => ret

/-- An operator may be taken. -/
theorem tookOperator (op : Operator) : Keeps R (tookOperator op) :=
  (consumeOperator op).bind fun _ => ret

/-- The rest of a line may be passed over. -/
theorem skipToEndOfLine : Keeps R skipToEndOfLine := by
  have hskipped : ∀ fuel s, R.Leads s (skippedLine fuel s) := by
    intro fuel
    induction fuel with
    | zero => exact R.refl
    | succ fuel ih =>
      intro s
      unfold skippedLine
      split
      · exact R.refl s
      · exact R.trans (R.advanced s) (ih _)
  exact fun s => hskipped _ s

/-- A fault may be noted at the next token. -/
theorem fault (f : SyntaxFault) : Keeps R (fault f) := fun s => R.fault s f

/-- Where a fault has been noted something is wrong. -/
theorem mend {f : SyntaxFault} {k : PUnit → Parser β} (hk : Mends R (k ⟨⟩)) :
    Keeps R (Parser.fault f >>= k) :=
  fun s => R.trans (R.fault s f) (hk _ (R.faulty_fault s f))

/-- A token may be asked for. -/
theorem expect (kind : TokenKind) (spelling : String) : Keeps R (expect kind spelling) :=
  (took kind).bind fun _ => ite ret ((fault _).bind fun _ => ret)

end Keeps

namespace Mends

variable {R : Course} {α β : Type} {p q : Parser α}

/-- What keeps to a relation does so where something is wrong. -/
theorem of_keeps (hp : Keeps R p) : Mends R p := fun s _ => hp s

/-- A parser may be followed by another one. -/
theorem bind {f : α → Parser β} (hp : Mends R p) (hf : ∀ a, Mends R (f a)) : Mends R (p >>= f) :=
  fun s hs => R.trans (hp s hs) (hf _ _ (R.faulty (hp s hs) hs))

section Nodes

variable {start stop : Nat} {form : Form}

/-- A node may be added that holds no block and says nothing that a token does. -/
theorem addNode (hform : form.holdsBlock = false) (hlexeme : form.lexeme? = none) :
    Mends R (addNode start stop form) :=
  fun s hs => R.add s (R.allows hform hlexeme) fun _ => hs

/-- A name without text may be added. -/
theorem nameNode {range : TextRange} : Mends R (nameNode ⟨range, .identifier ""⟩) :=
  addNode rfl rfl

/-- An error node may be added. -/
theorem errorNode (category : ErrorCategory) (child : Option NodeId) :
    Mends R (errorNode category child) := fun s hs => R.add s (R.allows rfl rfl) fun _ => hs

end Nodes

end Mends

namespace Keeps

variable {R : Course} {α β : Type} {p q : Parser α}

/-! ## Nodes -/

section Nodes

variable {start stop : Nat} {form : Form} {token : Token}

/-- A node may be added that holds no block and is no error and no word. -/
theorem addNode (hform : form.holdsBlock = false) (hword : form.isWord = false) :
    Keeps R (addNode start stop form) := fun s =>
  R.add s (R.allows hform (Form.lexeme?_of_isWord hword)) fun h =>
    absurd ((Form.standsIn_of_isWord hword).symm.trans h) Bool.false_ne_true

/-- A node may be added that reaches to the last token. -/
theorem node (hform : form.holdsBlock = false) (hword : form.isWord = false) :
    Keeps R (node start form) := fun s => addNode hform hword s

/-- A node may be added where a token stands. -/
theorem tokenNode (hform : form.holdsBlock = false) (hword : form.isWord = false) :
    Keeps R (tokenNode token form) := addNode hform hword

/-- A name may be taken where one is the next token. -/
theorem title {k : NodeId → Parser β} (hk : ∀ id, Keeps R (k id)) {s : ParseState}
    (hs : s.current.kind = .identifier) :
    R.Leads s ((Parser.advance >>= fun token => Parser.nameNode token >>= k).run s).2 :=
  R.trans (R.title s hs) (hk _ _)

/-- A name may be taken if one is the next token. -/
theorem consumeTitle {g : Option Token → Parser β} {k : NodeId → Parser β}
    (hsome : ∀ token, g (some token) = Parser.nameNode token >>= k) (hk : ∀ id, Keeps R (k id))
    (hnone : Keeps R (g none)) : Keeps R (Parser.consume .identifier >>= g) := by
  intro s
  show R.Leads s ((Parser.advanceIf (s.current.kind == .identifier) >>= g).run s).2
  cases htoken : s.current.kind == .identifier with
  | false => exact hnone s
  | true =>
    have htitle := title hk (eq_of_beq htoken)
    simp only [← hsome] at htitle
    exact htitle

/-- A name may be read. -/
theorem name (missing : SyntaxFault) : Keeps R (name missing) := by
  refine consumeTitle (fun token => (bind_pure _).symm) (fun id => ret) (mend ?_)
  exact (Mends.of_keeps currentStart).bind fun _ => Mends.nameNode

end Nodes

/-! ## Repetition -/

section Repetition

/-- A step may be repeated. -/
theorem many {step : Parser (Option α)} (hstep : Keeps R step) : Keeps R (many step) := by
  have hmany : ∀ fuel, Keeps R (manyAtMost step fuel) := by
    intro fuel
    induction fuel with
    | zero => exact ret
    | succ fuel ih =>
      refine hstep.bind fun a => ?_
      cases a with
      | none => exact ret
      | some a => exact ih.bind fun _ => ret
  refine hstep.bind fun a => ?_
  cases a with
  | none => exact ret
  | some a => exact (read fun _ => rfl).bind fun fuel => (hmany fuel).bind fun _ => ret

/-- A step may be repeated on its own result. -/
theorem foldMany {step : α → Parser (Option α)} {a : α} (hstep : ∀ a, Keeps R (step a)) :
    Keeps R (foldMany a step) := by
  have hfold : ∀ fuel a, Keeps R (foldAtMost step fuel a) := by
    intro fuel
    induction fuel with
    | zero => exact fun a => ret
    | succ fuel ih =>
      refine fun a => (hstep a).bind fun b => ?_
      cases b with
      | none => exact ret
      | some b => exact ih b
  refine (hstep a).bind fun b => ?_
  cases b with
  | none => exact ret
  | some b => exact (read fun _ => rfl).bind fun fuel => hfold fuel b

variable {stops : Parser Bool} {item : Parser α}

/-- Items may be read with commas between them. -/
theorem separated (hstops : Keeps R stops) (hitem : Keeps R item) :
    Keeps R (separated stops item) := by
  have hseparated : ∀ fuel, Keeps R (separatedAtMost stops item fuel) := by
    intro fuel
    induction fuel with
    | zero => exact ret
    | succ fuel ih =>
      refine hstops.bind fun stop => ite ret (hitem.bind fun a => ?_)
      exact (took .comma).bind fun comma => ite (ih.bind fun as => ret) ret
  exact (read fun _ => rfl).bind fun fuel => hseparated fuel

/-- Items may be read after a comma. -/
theorem more (hstops : Keeps R stops) (hitem : Keeps R item) : Keeps R (more stops item) :=
  (took .comma).bind fun _ => ite (separated hstops hitem) ret

end Repetition

/-- An expression may be read one level further in. -/
theorem nested {inner : Parser NodeId} (hinner : Keeps R inner) : Keeps R (nested inner) := by
  refine (read fun _ => rfl).bind fun s => ite ?_ ?_
  · refine mend ((Mends.of_keeps currentStart).bind fun start => ?_)
    refine (Mends.of_keeps skipToEndOfLine).bind fun _ => ?_
    exact (Mends.of_keeps (read fun _ => rfl)).bind fun _ => Mends.addNode rfl rfl
  · exact fun s => R.deeper (hinner _)

end Keeps

end TypeProbe
