import TypeProbe.Proofs.Tree.Steps

/-!
# Parts of a fixed kind

Some parts of a construct are of one kind in every tree: the title of a class is a name, and a
function takes parameters. Others are expressions or parts of expressions: so is all that an
expression is made of, hence no expression holds a statement (`Form.fixedParts`). An arena is
`Shaped` if this is so for all of its nodes and none of them is a module, which is made last.

`Shapes K p N` says that a parser keeps an arena shaped of whose nodes `K` is known, and that `N` is
known of those it gives. Its rules follow the shapes that parsers are written in.
-/

open TypeProbe.Parser

namespace TypeProbe

/-- Whether a construct is an expression or a part of one. -/
def NodeKind.isInline (kind : NodeKind) : Bool :=
  kind.isExpression || [.argument, .dictionaryExpandEntry, .dictionaryKeyEntry,
    .listComprehensionFor, .listComprehensionIf, .parameter].contains kind

/-- What may be known of a node. -/
inductive Trait where
  /-- It is of a kind. -/
  | kind (kind : NodeKind)
  /-- It is an expression or a part of one. -/
  | inline

/-- Nodes with what is known of them. -/
abbrev Known := List (NodeId × Trait)

/-- Nodes of which all the same is known. -/
def allOf (trait : Trait) (ids : List NodeId) : Known := ids.map fun id => (id, trait)

@[simp] theorem mem_allOf {trait : Trait} {ids : List NodeId} {part : NodeId × Trait} :
    part ∈ allOf trait ids ↔ part.1 ∈ ids ∧ part.2 = trait := by
  obtain ⟨id, t⟩ := part
  simp [allOf, eq_comm]

/-- Whether what a construct is made of are expressions and parts of them. -/
def Form.holdsInline (form : Form) : Bool := form.kind.isInline || form.kind == .return

/-- The parts of a construct of which the same is known in every tree, with what that is. -/
def Form.fixedParts : Form → Known
  | .classDef _ title _ _ => [(title, .kind .name)]
  | .function _ _ title parameters _ _ =>
    (title, .kind .name) :: allOf (.kind .parameter) parameters
  | .lambda parameters expression =>
    allOf (.kind .parameter) parameters ++ [(expression, .inline)]
  | .parameter _ title hint defaultValue =>
    allOf (.kind .name) title.toList ++ allOf .inline (hint.toList ++ defaultValue.toList)
  | .assignmentExpression title right => [(title, .kind .name), (right, .inline)]
  | .importAs source newName =>
    (source, .kind .moduleName) :: allOf (.kind .name) newName.toList
  | .importFromAs title newName => (title, .kind .name) :: allOf (.kind .name) newName.toList
  | .moduleName _ parts _ => allOf (.kind .name) parts
  | .global names => allOf (.kind .name) names
  | .nonlocal names => allOf (.kind .name) names
  | form => if form.holdsInline then allOf .inline form.children else []

/-- A note that a construct stands between parentheses leaves its parts. -/
@[simp] theorem Form.fixedParts_parenthesize (form : Form) :
    form.parenthesize.fixedParts = form.fixedParts := by
  cases form <;> rfl

/-- What an expression is made of is an expression by itself, a name or a parameter. -/
theorem Form.exists_mem_fixedParts {form : Form} (hform : form.holdsInline = true) {c : NodeId}
    (hc : c ∈ form.children) : ∃ trait, (c, trait) ∈ form.fixedParts ∧
      (trait = .inline ∨ ∃ kind : NodeKind, trait = .kind kind ∧ kind.isInline = true) := by
  cases form with
  | lambda parameters expression =>
    rcases List.mem_append.1 hc with hc | hc
    · exact ⟨.kind .parameter, by simp [fixedParts, hc], .inr ⟨_, rfl, rfl⟩⟩
    · exact ⟨.inline, by simpa [fixedParts] using hc, .inl rfl⟩
  | parameter category title hint defaultValue =>
    rw [children, List.append_assoc] at hc
    rcases List.mem_append.1 hc with hc | hc
    · exact ⟨.kind .name, List.mem_append_left _ (mem_allOf.2 ⟨hc, rfl⟩), .inr ⟨_, rfl, rfl⟩⟩
    · exact ⟨.inline, List.mem_append_right _ (mem_allOf.2 ⟨hc, rfl⟩), .inl rfl⟩
  | assignmentExpression title right =>
    rcases List.mem_cons.1 hc with rfl | hc
    · exact ⟨.kind .name, List.mem_cons_self, .inr ⟨_, rfl, rfl⟩⟩
    · exact ⟨.inline, by simpa [fixedParts] using hc, .inl rfl⟩
  | _ =>
    first
      | exact ⟨.inline, mem_allOf.2 ⟨hc, rfl⟩, .inl rfl⟩
      | cases hform

namespace Arena

/-- What is known of a node holds in an arena. -/
def Has (a : Arena) (part : NodeId × Trait) : Prop :=
  match part.2 with
  | .kind kind => a.kind? part.1 = some kind
  | .inline => ∃ kind, a.kind? part.1 = some kind ∧ kind.isInline = true

variable {a b : Arena}

/-- What is known of a node holds as long as the node is of the same kind. -/
theorem Has.of_kind? {part : NodeId × Trait} (h : a.Has part)
    (hkind : ∀ kind, a.kind? part.1 = some kind → b.kind? part.1 = some kind) : b.Has part := by
  obtain ⟨id, trait⟩ := part
  cases trait with
  | kind kind => exact hkind kind h
  | inline =>
    obtain ⟨kind, hid, hinline⟩ := h
    exact ⟨kind, hkind kind hid, hinline⟩

/-- No node is a module, and of the parts of every node holds what its form fixes. -/
def Shaped (a : Arena) : Prop :=
  ∀ i form, a.form? i = some form → form.kind ≠ .module ∧ ∀ part ∈ form.fixedParts, a.Has part

/-- An arena is shaped, and what is listed of its nodes holds. -/
structure Knows (a : Arena) (K : Known) : Prop where
  /-- Of parts holds what forms fix. -/
  shaped : a.Shaped
  /-- What is listed holds. -/
  known : ∀ part ∈ K, a.Has part

namespace Knows

variable {K K' : Known} {start stop : Nat} {form : Form}

/-- An arena without nodes is shaped. -/
theorem empty : Arena.empty.Knows [] :=
  ⟨fun i form h => by simp [form?, get?, Arena.empty] at h, nofun⟩

/-- Less may be listed. -/
theorem mono (h : a.Knows K) (hK : K' ⊆ K) : a.Knows K' :=
  ⟨h.shaped, fun part hpart => h.known part (hK hpart)⟩

/-- A node of a kind of expressions is an expression. -/
theorem inline (h : a.Knows K) {id : NodeId} {kind : NodeKind} (hid : (id, .kind kind) ∈ K)
    (hinline : kind.isInline = true) : a.Knows ((id, .inline) :: K) :=
  ⟨h.shaped, List.forall_mem_cons.2 ⟨⟨kind, h.known _ hid, hinline⟩, h.known⟩⟩

/-- A node that is added leaves what holds of the others. -/
theorem known_add (h : a.Knows K) : ∀ part ∈ K, (a.add start stop form).2.Has part :=
  fun part hpart => (h.known part hpart).of_kind? fun kind hkind => by
    rw [kind?_add, if_neg (Nat.ne_of_lt (lt_size_of_kind? hkind)), hkind]

/-- A node may be added of whose parts that is known what its form fixes. -/
theorem add (h : a.Knows K) (hparts : form.fixedParts ⊆ K) (hmodule : form.kind ≠ .module) :
    (a.add start stop form).2.Knows ((a.size, .kind form.kind) :: K) := by
  refine ⟨fun i other hi => ?_, List.forall_mem_cons.2 ⟨?_, h.known_add⟩⟩
  · rw [form?_add] at hi
    split at hi
    · obtain rfl := Option.some.inj hi
      exact ⟨hmodule, fun part hpart => h.known_add part (hparts hpart)⟩
    · obtain ⟨hother, hfixed⟩ := h.shaped i other hi
      exact ⟨hother, (Knows.mk h.shaped hfixed).known_add⟩
  · show (a.add start stop form).2.kind? a.size = some form.kind
    rw [kind?_add, if_pos rfl]

/-- A node may be widened. -/
theorem widened (h : a.Knows K) (i : NodeId) (start stop : Nat) :
    (a.widened i start stop).Knows K := by
  have hkinds : ∀ {part : NodeId × Trait}, a.Has part → (a.widened i start stop).Has part :=
    fun hpart => hpart.of_kind? fun kind hkind => by rw [kind?_widened, hkind]
  refine ⟨fun j form hj => ?_, fun part hpart => hkinds (h.known part hpart)⟩
  have hform : ∃ form', a.form? j = some form' ∧ form.kind = form'.kind ∧
      form.fixedParts = form'.fixedParts := by
    unfold form? at hj ⊢
    rw [get?_widened] at hj
    split at hj
    · obtain ⟨n, hn, rfl⟩ := Option.map_eq_some_iff.1 (by rwa [Option.map_map] at hj)
      exact ⟨n.form, by rw [hn]; rfl, Form.kind_parenthesize _, Form.fixedParts_parenthesize _⟩
    · exact ⟨form, hj, rfl, rfl⟩
  obtain ⟨form', hform', hkind, hfixed⟩ := hform
  obtain ⟨hmodule, hparts⟩ := h.shaped j form' hform'
  rw [hkind, hfixed]
  exact ⟨hmodule, fun part hpart => hkinds (hparts part hpart)⟩

end Knows

end Arena

/-- A parser keeps an arena shaped of whose nodes `K` is known, and makes more known. -/
def Shapes {α : Type} (K : Known) (p : Parser α) (N : α → Known) : Prop :=
  ∀ s, s.arena.Knows K → (p.run s).2.arena.Knows (N (p.run s).1 ++ K)

/-- A parser keeps an arena shaped of whose nodes `K` is known, and gives an expression or a part
of one. -/
abbrev Inlines (K : Known) (p : Parser NodeId) : Prop := Shapes K p fun id => [(id, .inline)]

namespace Shapes

variable {α β : Type} {K : Known} {p q : Parser α} {N : α → Known}

/-- A result may be returned of which nothing new is said. -/
theorem ret {a : α} : Shapes K (pure a) fun _ => [] := fun _ h => h

/-- A result may be returned of which something is known. -/
theorem give {a : α} (ha : N a ⊆ K) : Shapes K (pure a) N :=
  fun _ h => h.mono (List.append_subset.2 ⟨ha, List.Subset.refl K⟩)

/-- A parser may be followed by another one. -/
theorem bind {f : α → Parser β} {M : β → Known} (hp : Shapes K p N)
    (hf : ∀ a, Shapes (N a ++ K) (f a) M) : Shapes K (p >>= f) M := fun s h =>
  (hf _ _ (hp s h)).mono <| List.append_subset.2
    ⟨List.subset_append_left _ _, fun _ hpart =>
      List.mem_append_right _ (List.mem_append_right _ hpart)⟩

/-- What is returned may be changed. -/
theorem map {f : α → β} {M : β → Known} (hp : Shapes K p fun a => M (f a)) :
    Shapes K (f <$> p) M := hp

/-- A parser may choose between two. -/
theorem ite {c : Prop} [Decidable c] (hp : Shapes K p N) (hq : Shapes K q N) :
    Shapes K (if c then p else q) N := by
  split
  · exact hp
  · exact hq

/-- What is known of the result need not be said. -/
theorem drop (hp : Shapes K p N) : Shapes K p fun _ => [] :=
  fun s h => (hp s h).mono (List.subset_append_right _ _)

/-- What is known of the result may be said in another way. -/
theorem congr {M : α → Known} (hp : Shapes K p N) (hN : ∀ a, M a = N a) :
    Shapes K p M := fun s h => hN _ ▸ hp s h

/-! ## Tokens -/

/-- A parser that leaves the nodes keeps what is known. -/
theorem idle (hp : ∀ s, (p.run s).2.arena = s.arena) : Shapes K p fun _ => [] := fun s h => by
  rw [List.nil_append, hp]
  exact h

/-- A parser that only looks at the state keeps what is known. -/
theorem read (hp : ∀ s, (p.run s).2 = s) : Shapes K p fun _ => [] :=
  idle fun s => congrArg ParseState.arena (hp s)

/-- The next token may be looked at. -/
theorem look : Shapes K peek fun _ => [] := read fun _ => rfl

/-- The start of the next token may be looked at. -/
theorem currentStart : Shapes K currentStart fun _ => [] := read fun _ => rfl

/-- The next token may be taken. -/
theorem advance : Shapes K advance fun _ => [] := idle arena_advanced

/-- A token of a kind may be taken. -/
theorem consume (kind : TokenKind) : Shapes K (consume kind) fun _ => [] :=
  idle fun s => arena_advanceIf _ s

/-- A keyword may be taken. -/
theorem consumeKeyword (keyword : Keyword) : Shapes K (consumeKeyword keyword) fun _ => [] :=
  idle fun s => arena_advanceIf _ s

/-- An operator may be taken. -/
theorem consumeOperator (op : Operator) : Shapes K (consumeOperator op) fun _ => [] :=
  idle fun s => arena_advanceIf _ s

/-- A token of a kind may be taken. -/
theorem took (kind : TokenKind) : Shapes K (took kind) fun _ => [] := idle (arena_took kind)

/-- A keyword may be taken. -/
theorem tookKeyword (keyword : Keyword) : Shapes K (tookKeyword keyword) fun _ => [] :=
  idle fun s => arena_advanceIf _ s

/-- An operator may be taken. -/
theorem tookOperator (op : Operator) : Shapes K (tookOperator op) fun _ => [] :=
  idle fun s => arena_advanceIf _ s

/-- The rest of a line may be passed over. -/
theorem skipToEndOfLine : Shapes K skipToEndOfLine fun _ => [] := by
  have hskipped : ∀ fuel s, (skippedLine fuel s).arena = s.arena := by
    intro fuel
    induction fuel with
    | zero => exact fun s => rfl
    | succ fuel ih =>
      intro s
      unfold skippedLine
      split
      · rfl
      · rw [ih, arena_advanced]
  exact idle fun s => hskipped _ s

/-- A fault may be noted. -/
theorem faultAt (range : TextRange) (f : SyntaxFault) : Shapes K (faultAt range f) fun _ => [] :=
  idle fun s => by
    show (if _ then s else _ : ParseState).arena = _
    split <;> rfl

/-- A fault at the next token may be noted. -/
theorem fault (f : SyntaxFault) : Shapes K (fault f) fun _ => [] := idle (arena_fault f)

/-- A token may be asked for. -/
theorem expect (kind : TokenKind) (spelling : String) :
    Shapes K (expect kind spelling) fun _ => [] :=
  (took kind).bind fun _ => ite ret ((fault _).bind fun _ => ret)

/-! ## Nodes -/

section Nodes

variable {start stop : Nat} {form : Form} {token : Token} {id : NodeId} {kind : NodeKind}

/-- A node of a kind of expressions is known as an expression. -/
theorem knownInline (hid : (id, .kind kind) ∈ K) (hinline : kind.isInline = true)
    (hp : Shapes ((id, .inline) :: K) p N) : Shapes K p N := fun s h =>
  (hp s (h.inline hid hinline)).mono <| List.append_subset.2
    ⟨List.subset_append_left _ _, fun _ hpart =>
      List.mem_append_right _ (List.mem_cons_of_mem _ hpart)⟩

/-- A node that is given and of a kind of expressions is known as an expression. -/
theorem asInline {p : Parser NodeId} (hp : Shapes K p fun id => [(id, .kind kind)])
    (hinline : kind.isInline = true) : Inlines K p := fun s h =>
  ((hp s h).inline List.mem_cons_self hinline).mono <|
    List.cons_subset_cons _ (List.subset_cons_self _ _)

/-- A node may be added of whose parts that is known what its form fixes. -/
theorem add (hparts : form.fixedParts ⊆ K) (hmodule : form.kind ≠ .module) :
    Shapes K (addNode start stop form) fun id => [(id, .kind form.kind)] :=
  fun _ h => h.add hparts hmodule

/-- A node may be added whose form fixes nothing. -/
theorem addPlain (hparts : form.fixedParts = []) (hmodule : form.kind ≠ .module) :
    Shapes K (addNode start stop form) fun _ => [] :=
  drop (add (hparts ▸ List.nil_subset K) hmodule)

/-- A node may be added that reaches to the last token. -/
theorem node (hparts : form.fixedParts ⊆ K) (hmodule : form.kind ≠ .module) :
    Shapes K (node start form) fun id => [(id, .kind form.kind)] :=
  fun _ h => h.add hparts hmodule

/-- A node may be added that reaches to the last token and whose form fixes nothing. -/
theorem plain (hparts : form.fixedParts = []) (hmodule : form.kind ≠ .module) :
    Shapes K (Parser.node start form) fun _ => [] :=
  drop (node (hparts ▸ List.nil_subset K) hmodule)

/-- An expression has only expressions among its parts, if its form says no more of them. -/
theorem fixedParts_subset (hparts : form.fixedParts = allOf .inline form.children)
    (hchildren : ∀ c ∈ form.children, (c, .inline) ∈ K) : form.fixedParts ⊆ K := by
  rintro ⟨c, trait⟩ hpart
  rw [hparts, mem_allOf] at hpart
  obtain ⟨hc, rfl⟩ := hpart
  exact hchildren c hc

/-- An expression may be added. -/
theorem addInline (hinline : form.kind.isInline = true)
    (hparts : form.fixedParts = allOf .inline form.children)
    (hchildren : ∀ c ∈ form.children, (c, .inline) ∈ K) :
    Inlines K (addNode start stop form) := by
  refine asInline (add (fixedParts_subset hparts hchildren) fun hmodule => ?_) hinline
  rw [hmodule] at hinline
  cases hinline

/-- An expression may be added that reaches to the last token. -/
theorem inline (hinline : form.kind.isInline = true)
    (hparts : form.fixedParts = allOf .inline form.children)
    (hchildren : ∀ c ∈ form.children, (c, .inline) ∈ K) :
    Inlines K (Parser.node start form) :=
  (read fun _ => rfl).bind fun _ => addInline hinline hparts fun c hc =>
    List.mem_append_right _ (hchildren c hc)

/-- A name may be added. -/
theorem nameNode : Shapes K (nameNode token) fun id => [(id, .kind .name)] :=
  fun _ h => h.add (List.nil_subset K) nofun

/-- An error node may be added around an expression. -/
theorem errorNode (category : ErrorCategory) {child : Option NodeId}
    (hchild : ∀ c ∈ child.toList, (c, .inline) ∈ K) :
    Inlines K (errorNode category child) :=
  (read fun _ => rfl).bind fun _ => addInline rfl rfl fun c hc =>
    List.mem_append_right _ (hchild c hc)

/-- A name may be read. -/
theorem name (missing : SyntaxFault) : Shapes K (name missing) fun id => [(id, .kind .name)] := by
  refine (consume .identifier).bind fun token => ?_
  cases token with
  | some token => exact nameNode
  | none => exact (fault missing).bind fun _ => currentStart.bind fun _ => nameNode

end Nodes

/-! ## Repetition -/

section Repetition

/-- A step may be repeated. -/
theorem many {step : Parser (Option α)}
    (hstep : ∀ K, Shapes K step fun a => a.toList.flatMap N) :
    Shapes K (many step) fun as => as.flatMap N := by
  -- The first step is made in any case; the fuel bounds how often it is repeated.
  have hmany : ∀ fuel K, Shapes K (manyAtMost step fuel) fun as => as.flatMap N := by
    intro fuel
    induction fuel with
    | zero => exact fun K => ret
    | succ fuel ih =>
      refine fun K => (hstep K).bind fun a => ?_
      cases a with
      | none => exact ret
      | some a => exact (ih _).bind fun as => give (by simp)
  refine (hstep K).bind fun a => ?_
  cases a with
  | none => exact ret
  | some a =>
    exact (read fun _ => rfl).bind fun fuel => (hmany fuel _).bind fun as => give (by simp)

/-- A step of which nothing new is said may be repeated. -/
theorem manyPlain {step : Parser (Option α)} (hstep : ∀ K, Shapes K step fun _ => []) :
    Shapes K (Parser.many step) fun _ => [] :=
  drop (many (N := fun _ => []) fun K => (hstep K).congr fun a => by cases a <;> rfl)

/-- A step may be repeated on its own result. -/
theorem foldMany {step : α → Parser (Option α)}
    (hstep : ∀ K a, Shapes (N a ++ K) (step a) fun b => (b.map N).getD []) {a : α} :
    Shapes (N a ++ K) (foldMany a step) N := by
  have hsame : ∀ K a, N a ⊆ N a ++ K := fun _ _ => List.subset_append_left _ _
  -- What is known of each result is known when the next step is made.
  have hfold : ∀ fuel K a, Shapes (N a ++ K) (foldAtMost step fuel a) N := by
    intro fuel
    induction fuel with
    | zero => exact fun K a => give (hsame K a)
    | succ fuel ih =>
      refine fun K a => (hstep K a).bind fun b => ?_
      cases b with
      | none => exact give (hsame K a)
      | some b => exact ih _ b
  refine (hstep K a).bind fun b => ?_
  cases b with
  | none => exact give (hsame K a)
  | some b => exact (read fun _ => rfl).bind fun fuel => hfold fuel _ b

/-- A step of which nothing new is said may be repeated on its own result. -/
theorem foldPlain {step : α → Parser (Option α)}
    (hstep : ∀ K a, Shapes K (step a) fun _ => []) {a : α} :
    Shapes K (Parser.foldMany a step) fun _ => [] :=
  foldMany (N := fun _ => []) fun K a => (hstep K a).congr fun b => by cases b <;> rfl

variable {stops : Parser Bool} {item : Parser α}

/-- Items may be read with commas between them. -/
theorem separated (hstops : ∀ K, Shapes K stops fun _ => []) (hitem : ∀ K, Shapes K item N) :
    Shapes K (separated stops item) fun as => as.flatMap N := by
  have hseparated : ∀ fuel K, Shapes K (separatedAtMost stops item fuel) fun as =>
      as.flatMap N := by
    intro fuel
    induction fuel with
    | zero => exact fun K => ret
    | succ fuel ih =>
      refine fun K => (hstops K).bind fun stop => ite ret ?_
      refine (hitem K).bind fun a => (took .comma).bind fun comma => ite ?_ ?_
      · refine (ih _).bind fun as => give fun part hpart => ?_
        rcases List.mem_append.1 (List.flatMap_cons ▸ hpart) with ha | has
        · exact List.mem_append_right _ (List.mem_append_right [] (List.mem_append_left K ha))
        · exact List.mem_append_left _ has
      · exact give (by simp)
  exact (read fun _ => rfl).bind fun fuel => hseparated fuel K

/-- Items of which nothing new is said may be read with commas between them. -/
theorem separatedPlain (hstops : ∀ K, Shapes K stops fun _ => [])
    (hitem : ∀ K, Shapes K item fun _ => []) :
    Shapes K (Parser.separated stops item) fun _ => [] := drop (separated hstops hitem)

/-- Items may be read after a comma. -/
theorem more (hstops : ∀ K, Shapes K stops fun _ => []) (hitem : ∀ K, Shapes K item N) :
    Shapes K (more stops item) fun as => as.flatMap N :=
  (took .comma).bind fun _ => ite (separated hstops hitem) ret

/-- An expression may be given. -/
theorem giveInline {id : NodeId} (hid : (id, .inline) ∈ K) :
    Shapes K (pure (some id)) fun id => allOf .inline id.toList :=
  give (by simp [allOf, hid])

/-- A step may be repeated on an expression that it gives. -/
theorem foldInline {step : NodeId → Parser (Option NodeId)}
    (hstep : ∀ K a, Shapes ((a, .inline) :: K) (step a) fun id => allOf .inline id.toList)
    {a : NodeId} : Inlines ((a, .inline) :: K) (Parser.foldMany a step) :=
  foldMany (N := fun id => [(id, .inline)]) fun K a => (hstep K a).congr fun b => by
    cases b <;> rfl

/-- Expressions may be read one after the other. -/
theorem manyInline {step : Parser (Option NodeId)}
    (hstep : ∀ K, Shapes K step fun id => allOf .inline id.toList) :
    Shapes K (Parser.many step) (allOf .inline) :=
  (many fun K => (hstep K).congr fun _ => List.map_eq_flatMap.symm).congr fun _ =>
    List.map_eq_flatMap

/-- Expressions may be read with commas between them. -/
theorem separatedInline {item : Parser NodeId} (hstops : ∀ K, Shapes K stops fun _ => [])
    (hitem : ∀ K, Inlines K item) : Shapes K (Parser.separated stops item) (allOf .inline) :=
  (separated hstops hitem).congr fun _ => List.map_eq_flatMap

/-- Expressions may be read after a comma. -/
theorem moreInline {item : Parser NodeId} (hstops : ∀ K, Shapes K stops fun _ => [])
    (hitem : ∀ K, Inlines K item) : Shapes K (Parser.more stops item) (allOf .inline) :=
  (more hstops hitem).congr fun _ => List.map_eq_flatMap

end Repetition

/-- An expression may be read one level further in. -/
theorem nested {inner : Parser NodeId} (hinner : ∀ K, Inlines K inner) :
    Inlines K (nested inner) := by
  refine (read fun _ => rfl).bind fun s => ite ?_ ?_
  · refine (fault .tooDeep).bind fun _ => currentStart.bind fun start => ?_
    refine skipToEndOfLine.bind fun _ => (read fun _ => rfl).bind fun _ => ?_
    exact addInline rfl rfl nofun
  · refine (idle fun _ => rfl).bind fun _ => (hinner _).bind fun id => ?_
    exact (idle fun _ => rfl).bind fun _ => give (by simp)

end Shapes

end TypeProbe
