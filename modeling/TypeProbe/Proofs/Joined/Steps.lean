import TypeProbe.Proofs.Joined.Beside

/-!
# The steps of parsers side by side

One rule for each step that the grammar is written with: looking at tokens and taking them, noting
faults, adding nodes, and repeating what takes tokens.
-/

open TypeProbe.Parser

namespace TypeProbe

namespace Alike

variable {F : Frame} {p q u : Spot} {α β γ δ : Type} {g : α → β} {h : γ → δ}
  {goal : γ → Spot → Prop}

/-! ## Tokens -/

section Tokens

/-- What depends on the next token, but not on where it stands, may be looked at. -/
theorem look {x : Parser α} {f : Token → α} {k : α → Parser γ} {k' : α → Parser δ}
    (hx : ∀ s, x.run s = (f s.current, s)) (hf : ∀ t, f (t.shift F.bytes) = f t)
    (hk : Alike F p h (k (f p.token)) (k' (f p.token)) goal) :
    Alike F p h (x >>= k) (x >>= k') goal := by
  intro s s' hs
  have hrun : (x >>= k).run s = (k (f p.token)).run s := by
    rw [StateT.run_bind, hx, hs.token]
    rfl
  have hrun' : (x >>= k').run s' = (k' (f p.token)).run s' := by
    rw [StateT.run_bind, hx, hs.token', hf]
    rfl
  rw [hrun, hrun']
  exact hk s s' hs

/-- The next token may be looked at. -/
theorem peek {k : Token → Parser γ} {k' : Token → Parser δ}
    (hk : Alike F p h (k p.token) (k' (p.token.shift F.bytes)) goal) :
    Alike F p h (peek >>= k) (peek >>= k') goal := by
  intro s s' hs
  rw [← hs.token', ← hs.token] at hk
  exact hk s s' hs

/-- Where the next token starts may be noted. -/
theorem currentStart {k : Nat → Parser γ} {k' : Nat → Parser δ}
    (hk : Alike F p h (k p.token.start) (k' (p.token.start + F.bytes)) goal) :
    Alike F p h (currentStart >>= k) (currentStart >>= k') goal := by
  show Alike F p h (Parser.peek >>= fun t => k t.start) (Parser.peek >>= fun t => k' t.start) goal
  exact peek hk

/-- Whether the next token is of a kind may be seen. -/
theorem «at» {kind : TokenKind} {k : Bool → Parser γ} {k' : Bool → Parser δ}
    (hk : Alike F p h (k (p.token.kind == kind)) (k' (p.token.kind == kind)) goal) :
    Alike F p h («at» kind >>= k) («at» kind >>= k') goal :=
  look (f := fun t => t.kind == kind) (fun _ => rfl) (fun _ => rfl) hk

/-- Whether the next token is a keyword may be seen. -/
theorem atKeyword {keyword : Keyword} {k : Bool → Parser γ} {k' : Bool → Parser δ}
    (hk : Alike F p h (k (p.token.keyword? == some keyword)) (k' (p.token.keyword? == some keyword))
      goal) :
    Alike F p h (atKeyword keyword >>= k) (atKeyword keyword >>= k') goal :=
  look (f := fun t => t.keyword? == some keyword) (fun _ => rfl) (fun _ => rfl) hk

/-- Whether the line ends may be seen. -/
theorem atEndOfLine {k : Bool → Parser γ} {k' : Bool → Parser δ}
    (hk : Alike F p h (k (endsLine p.token.kind)) (k' (endsLine p.token.kind)) goal) :
    Alike F p h (atEndOfLine >>= k) (atEndOfLine >>= k') goal :=
  look (f := fun t => endsLine t.kind) (fun _ => rfl) (fun _ => rfl) hk

/-- The token after the next one may be looked at; at the end of the line nothing is known of it. -/
theorem peekSecond {k : Token → Parser γ} {k' : Token → Parser δ}
    (hk : ∀ t t', (endsLine p.token.kind = false →
      ∃ q, p.Next q ∧ t = q.token ∧ t' = q.token.shift F.bytes) → Alike F p h (k t) (k' t') goal) :
    Alike F p h (peekSecond >>= k) (peekSecond >>= k') goal := by
  intro s s' hs
  refine hk _ _ (fun hline => ?_) s s' hs
  obtain ⟨q, hq, -⟩ := hs.advanced (Frame.not_isEnd hline)
  rw [hs.after, hs.after', hq.after]
  exact ⟨q, hq, rfl, rfl⟩

/-- A test of the next token, which does not end the line, and of the token after it has the same
outcome. -/
theorem second_eq {c : Bool} {f : Token → Bool} {t t' : Token}
    (hf : ∀ t, f (t.shift F.bytes) = f t) (hc : c = true → endsLine p.token.kind = false)
    (ht : endsLine p.token.kind = false →
      ∃ q, p.Next q ∧ t = q.token ∧ t' = q.token.shift F.bytes) :
    (c && f t') = (c && f t) := by
  cases c with
  | false => rfl
  | true =>
    obtain ⟨q, -, rfl, rfl⟩ := ht (hc rfl)
    rw [hf]

/-- A token may be taken if it is not the last one. -/
theorem advance {k : Token → Parser γ} {k' : Token → Parser δ} (hend : ¬ F.IsEnd p.token)
    (hk : ∀ q, p.Next q → Alike F q h (k p.token) (k' (p.token.shift F.bytes)) goal) :
    Alike F p h (advance >>= k) (advance >>= k') goal := by
  intro s s' hs
  obtain ⟨q, hq, hbeside⟩ := hs.advanced hend
  obtain ⟨u, hqu, hu⟩ := hk q hq _ _ hbeside
  rw [← hs.token', ← hs.token] at hu
  exact ⟨u, hq.before.trans hqu, hu⟩

/-- Any token may be taken on the way to the end of the stream. -/
theorem advancePast {k : Token → Parser γ} {k' : Token → Parser δ} (hF : F.whole = true)
    (hk : ∀ q, p.Before q → (p.token.kind ≠ .endOfStream → q.after.length < p.after.length) →
      Alike F q h (k p.token) (k' (p.token.shift F.bytes)) goal) :
    Alike F p h (Parser.advance >>= k) (Parser.advance >>= k') goal := by
  by_cases hend : F.IsEnd p.token
  · intro s s' hs
    have hlast := hk p (.refl p) (fun hne => absurd ((Frame.isEnd_whole hF).1 hend) hne) _ _
      (hs.advanced_last hF hend)
    rw [← hs.token', ← hs.token] at hlast
    exact hlast
  · exact advance hend fun q hq => hk q hq.before fun _ => hq.lt

/-- A token may be taken on a condition. -/
theorem advanceIf {fits : Bool} {k : Option Token → Parser γ} {k' : Option Token → Parser δ}
    (hend : fits = true → ¬ F.IsEnd p.token)
    (hsome : fits = true → ∀ q, p.Next q →
      Alike F q h (k (some p.token)) (k' (some (p.token.shift F.bytes))) goal)
    (hnone : fits = false → Alike F p h (k none) (k' none) goal) :
    Alike F p h (advanceIf fits >>= k) (advanceIf fits >>= k') goal := by
  cases fits with
  | false => exact hnone rfl
  | true =>
    show Alike F p h (Parser.advance >>= fun t => k (some t))
      (Parser.advance >>= fun t => k' (some t)) goal
    exact advance (hend rfl) (hsome rfl)

/-- A token of a kind that may be taken may be taken. -/
theorem consume {kind : TokenKind} (hkind : F.Takes kind) {k : Option Token → Parser γ}
    {k' : Option Token → Parser δ}
    (hsome : p.token.kind = kind → ∀ q, p.Next q →
      Alike F q h (k (some p.token)) (k' (some (p.token.shift F.bytes))) goal)
    (hnone : Alike F p h (k none) (k' none) goal) :
    Alike F p h (consume kind >>= k) (consume kind >>= k') goal := by
  have htoken : (p.token.kind == kind) = true → p.token.kind = kind := fun h => eq_of_beq h
  show Alike F p h (Parser.at kind >>= fun fits => Parser.advanceIf fits >>= k)
    (Parser.at kind >>= fun fits => Parser.advanceIf fits >>= k') goal
  refine «at» (advanceIf (fun h => ?_) (fun h => hsome (htoken h)) fun _ => hnone)
  exact hkind.not_isEnd (htoken h)

/-- Keywords are not at the end of a line. -/
theorem endsLine_of_keyword? {t : Token} {keyword : Keyword} (h : t.keyword? = some keyword) :
    endsLine t.kind = false := by
  obtain ⟨range, lexeme⟩ := t
  cases lexeme
  case keyword => rfl
  all_goals cases h

/-- Operators are not at the end of a line. -/
theorem endsLine_of_operator? {t : Token} {op : Operator} (h : t.operator? = some op) :
    endsLine t.kind = false := by
  obtain ⟨range, lexeme⟩ := t
  cases lexeme
  case operator => rfl
  all_goals cases h

/-- A keyword may be taken. -/
theorem consumeKeyword {keyword : Keyword} {k : Option Token → Parser γ}
    {k' : Option Token → Parser δ}
    (hsome : p.token.keyword? = some keyword → ∀ q, p.Next q →
      Alike F q h (k (some p.token)) (k' (some (p.token.shift F.bytes))) goal)
    (hnone : Alike F p h (k none) (k' none) goal) :
    Alike F p h (consumeKeyword keyword >>= k) (consumeKeyword keyword >>= k') goal := by
  have htoken : (p.token.keyword? == some keyword) = true → p.token.keyword? = some keyword :=
    fun h => eq_of_beq h
  show Alike F p h (Parser.atKeyword keyword >>= fun fits => Parser.advanceIf fits >>= k)
    (Parser.atKeyword keyword >>= fun fits => Parser.advanceIf fits >>= k') goal
  refine atKeyword (advanceIf (fun h => ?_) (fun h => hsome (htoken h)) fun _ => hnone)
  exact Frame.not_isEnd (endsLine_of_keyword? (htoken h))

/-- An operator may be taken, if it is the next token. -/
theorem consumeOperator {op : Operator} {k : Option Token → Parser γ}
    {k' : Option Token → Parser δ}
    (hsome : p.token.operator? = some op → ∀ q, p.Next q →
      Alike F q h (k (some p.token)) (k' (some (p.token.shift F.bytes))) goal)
    (hnone : p.token.operator? ≠ some op → Alike F p h (k none) (k' none) goal) :
    Alike F p h (consumeOperator op >>= k) (consumeOperator op >>= k') goal := by
  have htoken : (p.token.operator? == some op) = true → p.token.operator? = some op :=
    fun h => eq_of_beq h
  show Alike F p h (Parser.atOperator op >>= fun fits => Parser.advanceIf fits >>= k)
    (Parser.atOperator op >>= fun fits => Parser.advanceIf fits >>= k') goal
  refine look (f := fun t => t.operator? == some op) (fun _ => rfl) (fun _ => rfl)
    (advanceIf (fun h => ?_) (fun h => hsome (htoken h)) fun h => hnone fun heq => ?_)
  · exact Frame.not_isEnd (endsLine_of_operator? (htoken h))
  · rw [heq, beq_self_eq_true] at h
    cases h

/-- A token of a kind may be taken. -/
theorem took {kind : TokenKind} (hkind : F.Takes kind) {k : Bool → Parser γ}
    {k' : Bool → Parser δ}
    (htrue : p.token.kind = kind → ∀ q, p.Next q → Alike F q h (k true) (k' true) goal)
    (hfalse : Alike F p h (k false) (k' false) goal) :
    Alike F p h (took kind >>= k) (took kind >>= k') goal := by
  show Alike F p h (Parser.consume kind >>= fun t => k t.isSome)
    (Parser.consume kind >>= fun t => k' t.isSome) goal
  exact consume hkind htrue hfalse

/-- A token of a kind may be taken or not. -/
theorem tookAny {kind : TokenKind} (hkind : F.Takes kind) :
    Alike F p id (Parser.took kind) (Parser.took kind) fun _ _ => True :=
  consume hkind (fun _ _ _ => ret rfl trivial) (ret rfl trivial)

/-- A keyword may be taken. -/
theorem tookKeyword {keyword : Keyword} {k : Bool → Parser γ} {l : Bool → Parser δ}
    (htrue : p.token.keyword? = some keyword → ∀ q, p.Next q →
      Alike F q h (k true) (l true) goal)
    (hfalse : Alike F p h (k false) (l false) goal) :
    Alike F p h (tookKeyword keyword >>= k) (tookKeyword keyword >>= l) goal := by
  show Alike F p h (Parser.consumeKeyword keyword >>= fun t => k t.isSome)
    (Parser.consumeKeyword keyword >>= fun t => l t.isSome) goal
  exact consumeKeyword htrue hfalse

/-- An operator may be taken. -/
theorem tookOperator {op : Operator} {k : Bool → Parser γ} {k' : Bool → Parser δ}
    (htrue : p.token.operator? = some op → ∀ q, p.Next q → Alike F q h (k true) (k' true) goal)
    (hfalse : Alike F p h (k false) (k' false) goal) :
    Alike F p h (tookOperator op >>= k) (tookOperator op >>= k') goal := by
  show Alike F p h (Parser.consumeOperator op >>= fun t => k t.isSome)
    (Parser.consumeOperator op >>= fun t => k' t.isSome) goal
  exact consumeOperator htrue fun _ => hfalse

end Tokens

/-! ## Faults and the rest of a line -/

/-- Where the last token stops may be noted. -/
theorem previousStop {k : Nat → Parser γ} {k' : Nat → Parser δ}
    (hk : ∀ n n', (∀ m, max (m + F.bytes) n' = max m n + F.bytes) →
      Alike F p h (k n) (k' n') goal) :
    Alike F p h (previousStop >>= k) (previousStop >>= k') goal := by
  intro s s' hs
  refine hk _ _ (fun m => ?_) s s' hs
  rw [Nat.max_comm, hs.max_previous, Nat.max_comm]

section Faults

variable {k : PUnit → Parser γ} {l : PUnit → Parser δ}

/-- A fault may be noted at the next token. -/
theorem fault {f : SyntaxFault} (hk : Alike F p h (k ⟨⟩) (l ⟨⟩) goal) :
    Alike F p h (fault f >>= k) (fault f >>= l) goal := by
  show Alike F p h (Parser.peek >>= fun t => Parser.faultAt t.range f >>= k)
    (Parser.peek >>= fun t => Parser.faultAt t.range f >>= l) goal
  refine peek fun s s' hs => ?_
  exact hk _ _ (hs.faultAt (hs.places _ List.mem_cons_self) f)

/-- A fault may be noted where a token stood. -/
theorem faultAt {f : SyntaxFault} {range : TextRange} (hplace : F.place range)
    (hk : Alike F p h (k ⟨⟩) (l ⟨⟩) goal) :
    Alike F p h (faultAt range f >>= k) (Parser.faultAt (range.shift F.bytes) f >>= l) goal :=
  fun _ _ hs => hk _ _ (hs.faultAt hplace f)

/-- The rest of a line may be passed over. -/
theorem skipToEndOfLine
    (hk : ∀ q, p.Before q → endsLine q.token.kind = true → Alike F q h (k ⟨⟩) (l ⟨⟩) goal) :
    Alike F p h (skipToEndOfLine >>= k) (skipToEndOfLine >>= l) goal := by
  intro s s' hs
  have hfuel : p.after.length ≤ s.following.length := by simp [hs.after]
  have hfuel' : p.after.length ≤ s'.following.length := by simp [hs.after']
  obtain ⟨q, hpq, hend, hq⟩ := hs.skippedLine hfuel hfuel'
  obtain ⟨u, hqu, hu⟩ := hk q hpq hend _ _ hq
  exact ⟨u, hpq.trans hqu, hu⟩

/-- A token may be asked for. -/
theorem expect {kind : TokenKind} (hkind : F.Takes kind) {spelling : String}
    {k : Bool → Parser γ} {l : Bool → Parser δ}
    (hk : ∀ found q, p.Before q → Alike F q h (k found) (l found) goal) :
    Alike F p h (expect kind spelling >>= k) (expect kind spelling >>= l) goal := by
  have htook : Alike F p id (Parser.expect kind spelling) (Parser.expect kind spelling)
      fun _ _ => True :=
    took hkind (fun _ _ _ => ret rfl trivial) (fault (ret rfl trivial))
  exact htook.bind fun found q hq _ => hk found q hq

end Faults

/-! ## Nodes -/

section Nodes

variable {start start' stop stop' : Nat} {form form' : Form} {token : Token}

/-- A node may be added, and the next token stays. -/
theorem addNodeHere (hstart : start' = start + F.bytes)
    (hstop : max stop' start' = max stop start + F.bytes)
    (hform : form' = form.shift F.bytes F.ids) :
    Alike F p (· + F.ids) (addNode start stop form) (addNode start' stop' form') fun id q =>
      id < q.nodes ∧ q.token = p.token := by
  subst hstart hform
  intro s s' hs
  have hadd : (s.arena.behind F.bytes F.front).add (start + F.bytes) stop'
      (form.shift F.bytes F.ids) =
        (s.arena.size + F.ids, (s.arena.add start stop form).2.behind F.bytes F.front) :=
    Arena.add_behind hstop
  rw [← hs.arena] at hadd
  refine ⟨{ p with nodes := s.arena.size + 1 }, ⟨Nat.le_refl _, Nat.le_succ_of_le hs.nodes,
    fun _ => rfl, rfl⟩, ?_, congrArg Prod.fst hadd, Nat.lt_succ_self _, rfl⟩
  exact ⟨hs.token, hs.token', hs.after, hs.after', hs.runs, hs.places, hs.previous,
    congrArg Prod.snd hadd, Nat.le_of_eq (Arena.size_add ..).symm, hs.diagnostics, hs.placed,
    hs.depth, hs.depth', hs.level⟩

/-- A node may be added. -/
theorem addNode (hstart : start' = start + F.bytes)
    (hstop : max stop' start' = max stop start + F.bytes)
    (hform : form' = form.shift F.bytes F.ids) :
    AlikeNode F p (Parser.addNode start stop form) (Parser.addNode start' stop' form') :=
  (addNodeHere hstart hstop hform).weaken fun _ _ _ h => h.1

/-- A node may be added that reaches to the last token, or to its last child, and the next token
stays. -/
theorem nodeHere (hstart : start' = start + F.bytes) (hform : form' = form.shift F.bytes F.ids) :
    Alike F p (· + F.ids) (node start form) (node start' form') fun id q =>
      id < q.nodes ∧ q.token = p.token := by
  intro s s' hs
  refine addNodeHere hstart ?_ hform s s' hs
  rw [hstart]
  exact hs.max_previous start

/-- A node may be added that reaches to the last token, or to its last child. -/
theorem node (hstart : start' = start + F.bytes) (hform : form' = form.shift F.bytes F.ids) :
    AlikeNode F p (Parser.node start form) (Parser.node start' form') :=
  (nodeHere hstart hform).weaken fun _ _ _ h => h.1

/-- A node may be added that reaches to the last token, or to its start. -/
theorem nodeBeyond (hstart : start' = start + F.bytes)
    (hform : form' = form.shift F.bytes F.ids) :
    AlikeNode F p (do Parser.addNode start (max (← Parser.previousStop) start) form)
      (do Parser.addNode start' (max (← Parser.previousStop) start') form') := by
  intro s s' hs
  refine addNode hstart ?_ hform s s' hs
  rw [hstart, hs.max_previous, Nat.add_max_add_right]

/-- A node may be added that reaches to its last child. -/
theorem nodeOver (hstart : start' = start + F.bytes) (hform : form' = form.shift F.bytes F.ids) :
    AlikeNode F p (Parser.addNode start start form) (Parser.addNode start' start' form') := by
  refine addNode hstart ?_ hform
  rw [hstart, Nat.add_max_add_right]

/-- A node may be added where a token stands. -/
theorem tokenNode (hform : form' = form.shift F.bytes F.ids) :
    AlikeNode F p (tokenNode token form) (tokenNode (token.shift F.bytes) form') := by
  refine addNode rfl ?_ hform
  rw [Token.stop_shift, Token.start_shift, Nat.add_max_add_right]

/-- A name may be added where a token stands. -/
theorem nameNode : AlikeNode F p (nameNode token) (nameNode (token.shift F.bytes)) := tokenNode rfl

/-- A name may be added where a token stood, and the next token stays. -/
theorem nameNodeHere : Alike F p (· + F.ids) (Parser.nameNode token)
    (Parser.nameNode (token.shift F.bytes)) fun id q => id < q.nodes ∧ q.token = p.token :=
  addNodeHere rfl (by rw [Token.stop_shift, Token.start_shift, Nat.add_max_add_right]) rfl

/-- An error node may be added. -/
theorem errorNode (category : ErrorCategory) (child : Option NodeId) :
    AlikeNode F p (errorNode category child) (errorNode category (child.map (· + F.ids))) := by
  intro s s' hs
  have hstart : (((child.map (· + F.ids)).bind s'.arena.range?).map (·.start)).getD s'.current.start
      = ((child.bind s.arena.range?).map (·.start)).getD s.current.start + F.bytes := by
    rw [hs.arena, hs.token, hs.token']
    cases child with
    | none => rfl
    | some id =>
      simp only [Option.map_some, Option.bind_some, Arena.start?_behind]
      cases s.arena.range? id <;> rfl
  refine addNode hstart ?_ rfl s s' hs
  rw [hstart, hs.max_previous, Nat.add_max_add_right]

/-- A name may be read. -/
theorem name (missing : SyntaxFault) : AlikeNode F p (name missing) (name missing) := by
  refine consume (.inl rfl) (fun _ q hq => nameNode) (fault (currentStart ?_))
  exact @nameNode F p ⟨⟨p.token.start, 0⟩, .identifier ""⟩

end Nodes

/-! ## Repetition -/

section Repetition

variable {n n' : Nat}

/-- How many rounds there may be is at least the number of tokens that both parsers see. -/
theorem roundLimit {k : Nat → Parser γ} {k' : Nat → Parser δ}
    (hk : ∀ n n', p.after.length < n → p.after.length < n' → Alike F p h (k n) (k' n') goal) :
    Alike F p h (roundLimit >>= k) (roundLimit >>= k') goal := by
  intro s s' hs
  refine hk _ _ ?_ ?_ s s' hs
  · simp only [hs.after, List.length_append]
    omega
  · simp only [hs.after', List.length_append, List.length_map]
    omega

/-- A step may be repeated as long as it takes a token. -/
theorem manyAtMost {step : Parser (Option α)} {step' : Parser (Option β)}
    (hstep : ∀ q, p.Before q → Alike F q (Option.map g) step step' fun a u =>
      a.isSome = true → u.after.length < q.after.length)
    (hn : p.after.length < n) (hn' : p.after.length < n') :
    Alike F p (List.map g) (manyAtMost step n) (manyAtMost step' n') fun _ _ => True := by
  induction n generalizing p n' with
  | zero => omega
  | succ n ih =>
    obtain ⟨n', rfl⟩ := Nat.exists_eq_add_of_le' (Nat.le_trans (Nat.le_add_left 1 _) hn')
    refine (hstep p (.refl p)).bind fun a q hq hlt => ?_
    cases a with
    | none => exact ret rfl trivial
    | some a =>
      have hless := hlt rfl
      refine bind (ih (fun u hu => hstep u (hq.trans hu)) (by omega) (by omega)) fun as u _ _ => ?_
      exact ret rfl trivial

/-- A step may be repeated as long as it takes a token, the first time excepted. -/
theorem manyFrom {step : Parser (Option α)} {step' : Parser (Option β)} {P : Spot → Prop}
    (hP : ∀ q u, p.Before q → q.Before u → P q → P u)
    (hfirst : Alike F p (Option.map g) step step' fun _ q => P q)
    (hstep : ∀ q, p.Before q → Alike F q (Option.map g) step step' fun a u =>
      a.isSome = true → u.after.length < q.after.length) :
    Alike F p (List.map g) (many step) (many step') fun _ q => P q := by
  refine hfirst.bind fun a q hq hPq => ?_
  cases a with
  | none => exact ret rfl hPq
  | some a =>
    refine roundLimit fun n n' hn hn' => ?_
    refine bind (manyAtMost (fun u hu => hstep u (hq.trans hu)) hn hn') fun as u hu _ => ?_
    exact ret rfl (hP q u hq hu hPq)

/-- A step may be repeated as long as it takes a token. -/
theorem many {step : Parser (Option α)} {step' : Parser (Option β)}
    (hstep : ∀ q, p.Before q → Alike F q (Option.map g) step step' fun a u =>
      a.isSome = true → u.after.length < q.after.length) :
    Alike F p (List.map g) (many step) (many step') fun _ _ => True :=
  manyFrom (fun _ _ _ _ h => h) ((hstep p (.refl p)).weaken fun _ _ _ _ => trivial) hstep

/-- A step may be repeated as long as it takes a token, and the second parser may be given a bound
for the number of rounds. -/
theorem manyWithin {step : Parser (Option α)} {step' : Parser (Option β)}
    (hstep : ∀ q, p.Before q → Alike F q (Option.map g) step step' fun a u =>
      a.isSome = true → u.after.length < q.after.length)
    (hn' : p.after.length < n') :
    Alike F p (List.map g) (Parser.many step) (Parser.manyAtMost step' n') fun _ _ => True := by
  obtain ⟨n', rfl⟩ := Nat.exists_eq_add_of_le' (Nat.le_trans (Nat.le_add_left 1 _) hn')
  refine (hstep p (.refl p)).bind fun a q hq hlt => ?_
  cases a with
  | none => exact ret rfl trivial
  | some a =>
    have hless := hlt rfl
    intro s s' hs
    have hn : q.after.length < s.following.length + 1 := by
      simp only [hs.after, List.length_append]
      omega
    have hrounds : Alike F q (List.map g)
        (do return a :: (← Parser.manyAtMost step (s.following.length + 1)))
        (do return g a :: (← Parser.manyAtMost step' n')) fun _ _ => True :=
      (manyAtMost (fun u hu => hstep u (hq.trans hu)) hn (by omega)).bind
        fun as u _ _ => ret rfl trivial
    exact hrounds s s' hs

variable {I J : α → Spot → Prop} {step : α → Parser (Option α)} {step' : β → Parser (Option β)}
  {a : α}

/-- A step may be repeated on its own result as long as it takes a token; what it says where it
yields nothing is what is known in the end. -/
theorem foldAtMost
    (hstep : ∀ a q, p.Before q → I a q → Alike F q (Option.map g) (step a) (step' (g a)) fun b u =>
      b.elim (J a u) fun b => I b u ∧ u.after.length < q.after.length)
    (ha : I a p) (hn : p.after.length < n) (hn' : p.after.length < n') :
    Alike F p g (foldAtMost step n a) (foldAtMost step' n' (g a)) J := by
  induction n generalizing p n' a with
  | zero => omega
  | succ n ih =>
    obtain ⟨n', rfl⟩ := Nat.exists_eq_add_of_le' (Nat.le_trans (Nat.le_add_left 1 _) hn')
    refine (hstep a p (.refl p) ha).bind fun b q hq hb => ?_
    cases b with
    | none => exact ret rfl hb
    | some b =>
      obtain ⟨hI, hless⟩ := hb
      exact ih (fun c u hu => hstep c u (hq.trans hu)) hI (by omega) (by omega)

/-- A step may be repeated on its own result as long as it takes a token. -/
theorem foldMany (ha : I a p)
    (hstep : ∀ a q, p.Before q → I a q → Alike F q (Option.map g) (step a) (step' (g a)) fun b u =>
      b.elim (J a u) fun b => I b u ∧ u.after.length < q.after.length) :
    Alike F p g (foldMany a step) (foldMany (g a) step') J := by
  refine (hstep a p (.refl p) ha).bind fun b q hq hb => ?_
  cases b with
  | none => exact ret rfl hb
  | some b =>
    refine roundLimit fun n n' hn hn' => ?_
    exact foldAtMost (fun c u hu => hstep c u (hq.trans hu)) hb.1 hn hn'

/-- A node may be made part of another one again and again. -/
theorem foldNodes {step step' : NodeId → Parser (Option NodeId)} {id : NodeId} (hid : id < p.nodes)
    (hstep : ∀ id q, p.Before q → id < q.nodes →
      Alike F q (Option.map (· + F.ids)) (step id) (step' (id + F.ids)) fun b u =>
        b.elim (id < u.nodes) fun b => b < u.nodes ∧ u.after.length < q.after.length) :
    AlikeNode F p (Parser.foldMany id step) (Parser.foldMany (id + F.ids) step') :=
  foldMany (I := fun id q => id < q.nodes) hid hstep

variable {stops : Parser Bool} {f : Token → Bool} {item item' : Parser NodeId}

/-- Nodes may be read with commas between them. -/
theorem separated (hstops : ∀ s, stops.run s = (f s.current, s))
    (hf : ∀ t, f (t.shift F.bytes) = f t)
    (hitem : ∀ q, p.Before q → f q.token = false → AlikeNode F q item item') :
    AlikeNodes F p (separated stops item) (separated stops item') := by
  have hseparated : ∀ n p n', p.after.length < n → p.after.length < n' →
      (∀ q, p.Before q → f q.token = false → AlikeNode F q item item') →
      AlikeNodes F p (separatedAtMost stops item n) (separatedAtMost stops item' n') := by
    intro n
    induction n with
    | zero => exact fun p n' hn => absurd hn (Nat.not_lt_zero _)
    | succ n ih =>
      intro p n' hn hn' hitem
      obtain ⟨n', rfl⟩ := Nat.exists_eq_add_of_le' (Nat.le_trans (Nat.le_add_left 1 _) hn')
      refine look hstops hf (ite (fun _ => ret rfl trivial) fun hgoesOn => ?_)
      refine (hitem p (.refl p) (Bool.not_eq_true _ ▸ hgoesOn)).bind fun id q hq _ => ?_
      refine took (.inl rfl) (fun _ u hu => ?_) (ret rfl trivial)
      have hlt := hu.lt
      have hmore := ih u n' (by omega) (by omega) fun v hv =>
        hitem v ((hq.trans hu.before).trans hv)
      exact hmore.bind fun ids v _ _ => ret rfl trivial
  exact roundLimit fun n n' hn hn' => hseparated n p n' hn hn' hitem

/-- Nodes may be read after a comma. -/
theorem more (hstops : ∀ s, stops.run s = (f s.current, s))
    (hf : ∀ t, f (t.shift F.bytes) = f t)
    (hitem : ∀ q, q.after.length < p.after.length → f q.token = false → AlikeNode F q item item') :
    AlikeNodes F p (more stops item) (more stops item') := by
  refine took (.inl rfl) (fun _ q hq => ?_) (ret rfl trivial)
  have hlt := hq.lt
  exact separated hstops hf fun u hu => hitem u (by omega)

end Repetition

/-- An expression may be read one level further in. -/
theorem nested {inner inner' : Parser NodeId}
    (hinner : AlikeNode F { p with depth := p.depth + 1 } inner inner') :
    AlikeNode F p (nested inner) (nested inner') := by
  refine inspect fun s s' hs => ?_
  rw [hs.depth', hs.depth]
  refine ite (fun _ => fault (currentStart (skipToEndOfLine fun q _ _ => nodeBeyond rfl rfl)))
    fun hlimit t t' ht => ?_
  have hdeeper : Beside F { p with depth := p.depth + 1 } { t with depth := t.depth + 1 }
      { t' with depth := t'.depth + 1 } :=
    ⟨ht.token, ht.token', ht.after, ht.after', ht.runs, ht.places, ht.previous, ht.arena, ht.nodes,
      ht.diagnostics, ht.placed, congrArg (· + 1) ht.depth, congrArg (· + 1) ht.depth',
      F.deeper _ (Nat.lt_of_not_le hlimit) ht.level⟩
  obtain ⟨q, ⟨hafter, hnodes, htoken, hdepth⟩, hq, hvalue, hid⟩ := hinner _ _ hdeeper
  refine ⟨{ q with depth := p.depth }, ⟨hafter, hnodes, htoken, rfl⟩, ?_, hvalue, hid⟩
  exact ⟨hq.token, hq.token', hq.after, hq.after', hq.runs, hq.places, hq.previous, hq.arena,
    hq.nodes, hq.diagnostics, hq.placed, congrArg (· - 1) (hq.depth.trans hdepth),
    congrArg (· - 1) (hq.depth'.trans hdepth), ht.level⟩

end Alike

end TypeProbe
