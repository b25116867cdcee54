import TypeProbe.Proofs.Joined.Rounds

/-!
# Joined texts

A text of whole lines without blocks, which may have any other faults, and another text behind it
are read as each of them alone (`ParsedText.ofText_joins`).

Behind the lines of the first text its own parser is at the end of its stream. That of the joined
text goes on side by side with the parser of the second text (`Level.besideBack`), whose items and
nodes therefore come after those of the first text (`IsPlain.items`). What is left is the root, which
takes the statements of both texts as its children.
-/

open TypeProbe.Parser

namespace TypeProbe

/-! ## The second text -/

/-- What the parser of a joined text has more on the second text. -/
def Frame.back (bytes : Nat) (front : Arena) (faults : List Diagnostic)
    (before : ∀ d ∈ faults, d.range.start < bytes) : Frame where
  bytes := bytes
  front := front
  faults := faults
  before := before
  whole := true
  rest := []
  rest' := []
  place _ := True
  level _ := True
  deeper _ _ h := h

/-- The tokens of a text run to the end of the stream. -/
theorem Frame.runs_stream {F : Frame} (hF : F.whole = true) {last t : Token}
    {front tokens : List Token} (hlast : last.kind = .endOfStream)
    (hfront : ∀ t ∈ front, t.lexeme ≠ .endOfStream) (h : front ++ [last] = t :: tokens) :
    F.Runs t tokens := by
  induction front generalizing t tokens with
  | nil =>
    obtain ⟨rfl, rfl⟩ := List.cons.inj h
    exact .last ((isEnd_whole hF).2 hlast)
  | cons u front ih =>
    obtain ⟨rfl, rfl⟩ := List.cons.inj h
    have hnot : u.kind ≠ .endOfStream :=
      fun hkind => hfront u List.mem_cons_self (Lexeme.eq_endOfStream hkind)
    obtain ⟨v, more, hmore⟩ : ∃ v more, front ++ [last] = v :: more :=
      List.exists_cons_of_ne_nil (List.append_ne_nil_of_right_ne_nil front (List.cons_ne_nil _ _))
    have happend : front.append [last] = v :: more := hmore
    rw [happend]
    exact .cons (fun hend => hnot ((isEnd_whole hF).1 hend)) hnot
      (ih (fun w hw => hfront w (List.mem_cons_of_mem _ hw)) hmore)

namespace ParsedText

/-- The tokens of a text are before its parser in the beginning. -/
theorem tokens_initialState {length : Nat} {tokens : List Token} (h : tokens ≠ []) :
    (initialState length tokens).current :: (initialState length tokens).following = tokens := by
  cases tokens with
  | nil => exact absurd rfl h
  | cons t tokens => rfl

/-- What the items of a text are, and the state behind the last one. -/
def items (text : List Char) : List (Option NodeId) × ParseState :=
  let tokens := Tokens.ofText text
  (many (Grammar.moduleItem (Rule.parse (callLimit tokens.length)))).run
    (initialState (byteLength text) tokens)

/-- The root of a text is the module of the statements among its items. -/
theorem ofText_items (text : String) :
    (ofText text).root = (items text.toList).2.arena.size ∧
      (ofText text).arena = ((items text.toList).2.arena.add 0 (byteLength text.toList)
        (.module ((items text.toList).1.filterMap id))).2 ∧
      (ofText text).diagnostics = (items text.toList).2.diagnostics.reverse := ⟨rfl, rfl, rfl⟩

end ParsedText

/-- Behind the last line of the first text both the parser of the joined text and that of the second
text begin with the second text. -/
theorem Level.besideBack {stop length : Nat} {rest back tokens : List Token} {t : Token}
    {s s' : ParseState} (h : Level stop [] rest (back.map (Token.shift stop)) s s')
    (hprevious : s.previousStop ≤ stop) (hback : back = t :: tokens)
    (hruns : (Frame.back stop s.arena s.diagnostics fun d hd => (h.placed d hd).1).Runs t tokens) :
    Beside (Frame.back stop s.arena s.diagnostics fun d hd => (h.placed d hd).1)
      ⟨t, tokens, 0, 0⟩ (ParsedText.initialState length back) s' := by
  subst hback
  obtain ⟨htoken, hafter⟩ := List.cons.inj h.tokens'
  refine ⟨rfl, htoken, (List.append_nil _).symm, hafter.trans (List.append_nil _).symm, hruns,
    fun _ _ => trivial, ?_, ?_, Nat.zero_le _, h.diagnostics, nofun, rfl, h.depth',
    trivial⟩
  · show max stop s'.previousStop = 0 + stop
    rw [h.previous, Nat.zero_add, Nat.max_eq_left hprevious]
  · exact h.arena.trans (Arena.empty_behind _ _).symm

/-- A step goes side by side as often as it is repeated. -/
theorem Alike.repeats {α β : Type} {F : Frame} {p : Spot} {g : α → β} {step : Parser (Option α)}
    {step' : Parser (Option β)} {s s' : ParseState} {x : Parser (List β)} (hx : Repeats step' s' x)
    (hs : Beside F p s s')
    (hstep : ∀ q, p.Before q → Alike F q (Option.map g) step step' fun a u =>
      a.isSome = true → u.after.length < q.after.length) :
    ∃ q, Beside F q ((Parser.many step).run s).2 (x.run s').2 ∧
      (x.run s').1 = ((Parser.many step).run s).1.map g := by
  have halike : Alike F p (List.map g) (Parser.many step) x fun _ _ => True := by
    rcases hx with rfl | ⟨n, hn, rfl⟩
    · exact many hstep
    · refine manyWithin hstep (Nat.lt_of_le_of_lt ?_ hn)
      simp [hs.after']
  obtain ⟨q, -, hq, hvalue, -⟩ := halike s s' hs
  exact ⟨q, hq, hvalue⟩

/-- The items of a joined text are those of both texts, each of which is read alone. -/
theorem IsPlain.items {front : List Char} (h : IsPlain front) (back : List Char) :
    let a := ParsedText.items front
    let b := ParsedText.items back
    let whole := ParsedText.items (front ++ back)
    whole.1 = a.1 ++ b.1.map (Option.map (· + a.2.arena.size)) ∧
      whole.2.arena = b.2.arena.behind (byteLength front) a.2.arena ∧
      whole.2.diagnostics =
        b.2.diagnostics.map (Diagnostic.shift (byteLength front)) ++ a.2.diagnostics ∧
      ∀ id, some id ∈ a.1 → id < a.2.arena.size := by
  obtain ⟨base, hplain, hfront, hwhole⟩ := h.tokens
  obtain ⟨-, body, hbody, hback⟩ := Tokens.tiles_ofText back
  obtain ⟨t, tokens, htokens⟩ : ∃ t tokens, Tokens.ofText back = t :: tokens := by
    rw [hback]
    exact List.exists_cons_of_ne_nil
      (List.append_ne_nil_of_right_ne_nil body (List.cons_ne_nil _ _))
  have hlimits : 4 * base.length + 5 ≤ ParsedText.callLimit (Tokens.ofText front).length ∧
      4 * base.length + 5 ≤ ParsedText.callLimit (Tokens.ofText (front ++ back)).length ∧
      ParsedText.callLimit (Tokens.ofText back).length ≤
        ParsedText.callLimit (Tokens.ofText (front ++ back)).length := by
    simp only [hfront, hwhole back, ParsedText.callLimit, List.length_append, List.length_map]
    omega
  obtain ⟨hlimit, hlimit', hlimit''⟩ := hlimits
  -- Both parsers go through the lines of the first text.
  have hlevel : Level (byteLength front) base [⟨⟨byteLength front, 0⟩, .endOfStream⟩]
      ((Tokens.ofText back).map (Token.shift (byteLength front)))
      (ParsedText.initialState (byteLength front) (Tokens.ofText front))
      (ParsedText.initialState (byteLength (front ++ back)) (Tokens.ofText (front ++ back))) := by
    refine ⟨?_, ?_, rfl, rfl, rfl, nofun, rfl, rfl⟩
    · rw [ParsedText.tokens_initialState (by simp [hfront]), hfront]
    · rw [ParsedText.tokens_initialState (by simp [hwhole, htokens]), hwhole]
  obtain ⟨items, u, u', hrounds, hrounds', hend, hprevious, -, hitems⟩ :=
    hlevel.rounds hplain (by simp) (by simp [htokens]) hlimit hlimit' (List.nil_append base).symm
      nofun (Nat.zero_le _)
  obtain ⟨x, hx, hmany⟩ := hrounds.many
  obtain ⟨x', hx', hmany'⟩ := hrounds'.many
  -- Then the first one is at the end, and the second one reads the second text.
  have hdone : x.run u = ([], u) := by
    refine hx.run_of_none ?_
    obtain ⟨⟨range, lexeme⟩⟩ := u
    obtain ⟨hcurrent, -⟩ := List.cons.inj hend.tokens
    obtain ⟨-, rfl⟩ := Token.mk.inj hcurrent
    rfl
  have hruns := Frame.runs_stream (F := Frame.back (byteLength front) u.arena u.diagnostics
    fun d hd => (hend.placed d hd).1) rfl rfl hbody (hback.symm.trans htokens)
  have hbeside := @Level.besideBack _ (byteLength back) _ _ _ _ _ _ hend hprevious htokens hruns
  have hcall := RulesAlike.parse (Frame.back (byteLength front) u.arena u.diagnostics
    fun d hd => (hend.placed d hd).1) (Nat.le_refl _) hlimit''
  have hlength := congrArg List.length htokens
  rw [List.length_cons] at hlength
  obtain ⟨q, hbehind, hvalue⟩ := Alike.repeats hx' hbeside fun q hq =>
    Alike.moduleItem hcall rfl (by
      have hless : q.after.length ≤ tokens.length := hq.1
      simp only [ParsedText.callLimit]
      omega)
  have hfirst : ParsedText.items front = (items, u) := by
    rw [ParsedText.items, hmany, hdone, List.append_nil]
  have hjoined : ParsedText.items (front ++ back) = (items ++ (x'.run u').1, (x'.run u').2) :=
    hmany'
  dsimp only
  rw [hfirst, hjoined]
  exact ⟨congrArg _ hvalue, hbehind.arena, hbehind.diagnostics, hitems⟩

/-! ## The joined text -/

section Arena

variable {a b : Arena} {start stop bytes : Nat} {as bs : List NodeId} {i : Nat}

/-- The nodes of an arena that stands before another one are as they were, but for those that become
children of a common root. -/
theorem Arena.get?_join_front (hi : i < a.size) :
    ((b.behind bytes a).add start stop (.module (as ++ bs.map (· + a.size)))).2.get? i =
      if i ∈ as then (a.get? i).map fun n => { n with parent := some (b.size + a.size) }
      else a.get? i := by
  have hne : i ≠ b.size + a.size := by omega
  have hmem : i ∈ (Form.module (as ++ bs.map (· + a.size))).children ↔ i ∈ as := by
    simp only [Form.children, List.mem_append, List.mem_map, or_iff_left_iff_imp]
    rintro ⟨j, -, rfl⟩
    omega
  simp only [get?_add, size_behind, if_neg hne, hmem, get?_behind_of_lt _ _ _ hi]

/-- The nodes of the other one are as they would be below a root of their own, further back. -/
theorem Arena.get?_join_back {start' stop' : Nat} (has : ∀ j ∈ as, j < a.size) (hi : i < b.size) :
    ((b.behind bytes a).add start stop (.module (as ++ bs.map (· + a.size)))).2.get? (i + a.size) =
      ((b.add start' stop' (.module bs)).2.get? i).map (Node.shift bytes a.size) := by
  have hne : i + a.size ≠ b.size + a.size := by omega
  have hmem : i + a.size ∈ (Form.module (as ++ bs.map (· + a.size))).children ↔
      i ∈ (Form.module bs).children := by
    simp only [Form.children, List.mem_append, List.mem_map, Nat.add_right_cancel_iff,
      exists_eq_right, or_iff_right_iff_imp]
    exact fun hmem => absurd (has _ hmem) (Nat.not_lt.2 (Nat.le_add_left ..))
  simp only [get?_add, size_behind, if_neg hne, if_neg (Nat.ne_of_lt hi), hmem, get?_behind]
  split
  · simp only [Option.map_map]
    exact congrArg (Option.map · _) (funext fun n => by simp [Node.shift])
  · rfl

end Arena

/-- One text is what two others are together, of which the first has the given number of bytes: it
has their statements and their faults one after the other, those of the second text some bytes
further back and with ids that are greater by the number of nodes of the first text without its
root. -/
structure ParsedText.Joins (bytes : Nat) (a b whole : ParsedText) : Prop where
  /-- The root of the first text is its last node. -/
  last : a.arena.size = a.root + 1
  /-- There are as many nodes as in both texts, but for one root. -/
  root : whole.root = a.root + b.root
  /-- The root is the last node. -/
  size : whole.arena.size = whole.root + 1
  /-- The statements are those of both texts. -/
  statements : whole.arena.children whole.root =
    a.arena.children a.root ++ (b.arena.children b.root).map (· + a.root)
  /-- The nodes of the first text are as they were, but for the root above them. -/
  front : ∀ i < a.root, whole.arena.get? i =
    if i ∈ a.arena.children a.root then
      (a.arena.get? i).map fun n => { n with parent := some whole.root }
    else a.arena.get? i
  /-- The nodes of the second text are as they were, further back. -/
  back : ∀ i < b.root, whole.arena.get? (i + a.root) =
    (b.arena.get? i).map (Node.shift bytes a.root)
  /-- The faults are those of both texts. -/
  diagnostics : whole.diagnostics = a.diagnostics ++ b.diagnostics.map (Diagnostic.shift bytes)

/-- Whole lines without blocks and a text behind them are read one after the other. -/
theorem ParsedText.joins_of_isPlain {front : String} (h : IsPlain front.toList) (back : String) :
    Joins (byteLength front.toList) (ofText front) (ofText back) (ofText (front ++ back)) := by
  obtain ⟨hitems, harena, hdiagnostics, hids⟩ := h.items back.toList
  obtain ⟨hroot, ha, hfaults⟩ := ofText_items front
  obtain ⟨hroot', hb, hfaults'⟩ := ofText_items back
  obtain ⟨hroot'', hwhole, hfaults''⟩ := ofText_items (front ++ back)
  rw [String.toList_append, hdiagnostics, List.reverse_append, ← List.map_reverse, ← hfaults,
    ← hfaults'] at hfaults''
  rw [String.toList_append, hitems, harena, List.filterMap_append, filterMap_id_shift] at hwhole
  rw [String.toList_append, harena, Arena.size_behind, Nat.add_comm] at hroot''
  have has : ∀ i ∈ (items front.toList).1.filterMap id, i < (items front.toList).2.arena.size := by
    intro i hi
    obtain ⟨item, hitem, heq⟩ := List.mem_filterMap.1 hi
    exact hids i (heq ▸ hitem)
  generalize (items front.toList).1.filterMap id = as at ha hwhole has
  generalize (items back.toList).1.filterMap id = bs at hb hwhole
  generalize (items front.toList).2.arena = a at *
  generalize (items back.toList).2.arena = b at *
  refine ⟨?_, ?_, ?_, ?_, fun i hi => ?_, fun i hi => ?_, hfaults''⟩
  · rw [ha, Arena.size_add, hroot]
  · rw [hroot'', hroot, hroot']
  · rw [hwhole, Arena.size_add, Arena.size_behind, hroot'', Nat.add_comm a.size]
  · rw [hwhole, ha, hb, hroot'', hroot, hroot', Nat.add_comm a.size, Arena.children_add,
      Arena.children_add, Arena.children_add, Arena.size_behind, if_pos rfl, if_pos rfl, if_pos rfl]
    rfl
  · rw [hroot] at hi
    rw [hwhole, Arena.get?_join_front hi, ha, hroot, hroot'', Arena.children_add, if_pos rfl,
      Arena.get?_add, if_neg (Nat.ne_of_lt hi), Nat.add_comm]
    show (if i ∈ as then _ else _) = if i ∈ as then Option.map _ (if i ∈ as then _ else _) else
      if i ∈ as then _ else _
    split
    · rw [Option.map_map]
      rfl
    · rfl
  · rw [hroot'] at hi
    rw [hwhole, hb, hroot, Arena.get?_join_back has hi]

/-- A text of whole lines without blocks, whatever else may be wrong with them, is read as if
nothing came behind it, and what comes behind it is read as if it were alone. -/
theorem ParsedText.ofText_joins {front : String} (h : IsPlain front.toList) (back : String) :
    Joins (byteLength front.toList) (ofText front) (ofText back) (ofText (front ++ back)) :=
  joins_of_isPlain h back

/-- An assignment without a value is such a text, and is read as if no other line came behind it. -/
theorem ParsedText.ofText_joins_missing_value :
    IsPlain (String.ofList ['x', ' ', '=', '\n']).toList ∧
      Joins (byteLength (String.ofList ['x', ' ', '=', '\n']).toList)
        (ofText (String.ofList ['x', ' ', '=', '\n'])) (ofText (String.ofList ['y', '\n']))
        (ofText (String.ofList ['x', ' ', '=', '\n'] ++ String.ofList ['y', '\n'])) := by
  have hplain : IsPlain (String.ofList ['x', ' ', '=', '\n']).toList := by
    rw [String.toList_ofList]
    refine ⟨rfl, ⟨?_, ?_, ?_, ?_⟩, ?_⟩ <;> decide +kernel
  exact ⟨hplain, ofText_joins hplain _⟩

end TypeProbe
