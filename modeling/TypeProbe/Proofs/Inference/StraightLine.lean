import TypeProbe.Proofs.Inference.Chains
import TypeProbe.Proofs.Scope.Returns
import TypeProbe.Proofs.Spelling

/-!
# Straight-line modules are evaluated as they are executed

The evaluation executes nothing: it picks, among all declarations of a name, the one that stands last
among those that come before the name and whose values the name is not part of. In a straight-line
module these are the declarations of the lines before that of the name (`Program.precedes_before`,
`Program.not_precedes_behind`), and the last of them has the value that the name stands for when the
lines are executed (`Program.standsFor?_of_reads`). So a checker answers for a name with the type of
this value (`Checker.name_eq_value`).
-/

namespace TypeProbe

namespace AssignedLine

/-- The nodes of a line in the order of the text: its names, then its value. -/
def nodes (line : AssignedLine) : List NodeId := line.targets.map (·.2) ++ [line.value]

/-- The declarations of a name on lines, in the order of the text. -/
def declared (lines : List AssignedLine) (x : String) : List Declaration :=
  ((lines.flatMap declarations).filter (·.1 == x)).map (·.2)

/-- The declarations of a name on lines, and on those behind them. -/
theorem declared_append (front back : List AssignedLine) (x : String) :
    declared (front ++ back) x = declared front x ++ declared back x := by
  rw [declared, List.flatMap_append, List.filter_append, List.map_append]
  rfl

/-- The declarations of a name on lines are those of its targets. -/
theorem mem_declared {lines : List AssignedLine} {x : String} {d : Declaration}
    (h : d ∈ declared lines x) :
    ∃ line ∈ lines, ∃ target, (x, target) ∈ line.targets ∧ d = .ofValue target line.value := by
  obtain ⟨⟨y, _⟩, hd, rfl⟩ := List.mem_map.1 h
  obtain ⟨hd, hx⟩ := List.mem_filter.1 hd
  obtain ⟨line, hline, hd⟩ := List.mem_flatMap.1 hd
  obtain ⟨⟨y', target⟩, htarget, heq⟩ := List.mem_map.1 hd
  cases heq
  obtain rfl := beq_iff_eq.1 hx
  exact ⟨line, hline, target, htarget, rfl⟩

/-- The targets of lines come in the order of the nodes of the lines. -/
theorem sublist_nodes (lines : List AssignedLine) :
    ((lines.flatMap declarations).map (·.2.node)).Sublist (lines.flatMap nodes) := by
  induction lines with
  | nil => exact .slnil
  | cons line lines ih =>
    rw [List.flatMap_cons, List.flatMap_cons, List.map_append]
    refine List.Sublist.append ?_ ih
    have htargets : line.declarations.map (·.2.node) = line.targets.map (·.2) := by
      rw [declarations, List.map_map]
      rfl
    rw [htargets]
    exact List.sublist_append_left _ _

/-- The value that a name stands for is that of its last declaration. -/
theorem executed_eq (lines : List AssignedLine) (x : String) :
    executed lines x = (declared lines x).getLast?.bind (·.source) := by
  induction lines using List.reverseRecOn with
  | nil => rfl
  | append_singleton lines line ih =>
    have hexecuted : executed (lines ++ [line]) x =
        if line.targets.any (·.1 == x) then some line.value else executed lines x := by
      rw [executed, List.foldl_append]
      rfl
    rw [hexecuted, declared_append, List.getLast?_append]
    have hline : declared [line] x = (line.targets.filter (·.1 == x)).map fun target =>
        Declaration.ofValue target.2 line.value := by
      rw [declared, List.flatMap_singleton, declarations, List.filter_map, List.map_map]
      rfl
    rw [hline]
    cases hlast : (line.targets.filter (·.1 == x)).getLast? with
    | none =>
      have hempty := List.getLast?_eq_none_iff.1 hlast
      have hany : line.targets.any (·.1 == x) = false := by
        rw [List.any_eq_false]
        exact fun target htarget => List.filter_eq_nil_iff.1 hempty target htarget
      rw [hempty, hany, ih]
      rfl
    | some target =>
      have hmem := List.mem_filter.1 (List.mem_of_getLast? hlast)
      have hany : line.targets.any (·.1 == x) = true := List.any_eq_true.2 ⟨target, hmem⟩
      rw [hany, List.getLast?_map, hlast]
      rfl

end AssignedLine

/-! ## In the order of the text -/

/-- Nodes that are arranged stop before those behind them. -/
theorem Arranged.pairwise_stopsBefore {a : Arena} {ids : List NodeId} {lo hi : Nat}
    (h : Arranged a lo ids hi) : ids.Pairwise a.StopsBefore := by
  refine h.pairwise.imp_of_mem fun hi hj hstops => ?_
  obtain ⟨r, hr, -⟩ := h.bounds hi
  obtain ⟨s, hs, -⟩ := h.bounds hj
  exact ⟨r, s, hr, hs, hstops r s hr hs⟩

namespace Arena

variable {a : Arena} {root n m statement value target : NodeId} {targets : List (String × NodeId)}
  {line : AssignedLine} {lines front back : List AssignedLine} {ids : List NodeId} {lo hi : Nat}
  {x : String}

/-- The targets of a statement are names with text. -/
theorem GivesTo.form?_target (h : a.GivesTo statement targets value) (hx : (x, target) ∈ targets) :
    ∃ token, a.form? target = some (.name token x) ∧ x ≠ "" := by
  induction h with
  | last _ hname hne _ =>
    cases List.mem_singleton.1 hx
    exact ⟨_, hname, hne⟩
  | chained _ hname hne _ ih =>
    rcases List.mem_cons.1 hx with heq | hx
    · cases heq
      exact ⟨_, hname, hne⟩
    · exact ih hx

/-- A statement gives its value to at least one name. -/
theorem GivesTo.targets_ne_nil (h : a.GivesTo statement targets value) : targets ≠ [] := by
  cases h <;> exact nofun

/-- The value of a statement is part of a statement that assigns it. -/
theorem GivesTo.parent?_value (ha : a.Rooted root) (h : a.GivesTo statement targets value) :
    ∃ parent left, a.parent? value = some parent ∧
      a.form? parent = some (.assignment left value) := by
  induction h with
  | last hform => exact ⟨_, _, ha.parent?_of_form? hform (by simp [Form.children]), hform⟩
  | chained _ _ _ _ ih => exact ih

/-- The names and the value of a statement stand in it one after the other. -/
theorem GivesTo.arranged (hnested : Nested a hi) (h : a.GivesTo statement targets value)
    {s : TextRange} (hs : a.range? statement = some s) :
    Arranged a s.start (AssignedLine.nodes ⟨targets, value⟩) s.stop := by
  induction h generalizing s with
  | last hform =>
    have harranged := (hnested _ s hs).2
    rwa [children_of_form? hform] at harranged
  | chained hform _ _ _ ih =>
    have harranged := (hnested _ s hs).2
    rw [children_of_form? hform] at harranged
    obtain ⟨t, ht, hstart, r, hr, hle, hstop⟩ := harranged
    exact ⟨t, ht, hstart, (ih hr).mono hle hstop⟩

/-- The names and the values of lines stand one after the other. -/
theorem arranged_lines (hnested : Nested a hi) (h : List.Forall₂ a.IsLine ids lines)
    {stop : Nat} (hids : Arranged a lo ids stop) :
    Arranged a lo (lines.flatMap AssignedLine.nodes) stop := by
  induction h generalizing lo with
  | nil => exact hids
  | @cons id line ids lines hline _ ih =>
    obtain ⟨statement, hform, hgives⟩ := hline
    obtain ⟨s, hs, hstart, hrest⟩ := hids
    have hstatement := (hnested id s hs).2
    rw [children_of_form? hform] at hstatement
    obtain ⟨r, hr, hle, hstop⟩ := hstatement
    rw [List.flatMap_cons]
    exact ((hgives.arranged hnested hr).mono (Nat.le_trans hstart hle) hstop).append (ih hrest)

/-- The names and the values of a straight-line module stop before those behind them. -/
theorem StraightLine.pairwise (hnested : Nested a hi) (h : a.StraightLine root lines) :
    (lines.flatMap AssignedLine.nodes).Pairwise a.StopsBefore := by
  obtain ⟨ids, hform, hlines⟩ := h
  obtain ⟨r, hr⟩ := exists_range (kind?_of_form? hform)
  have harranged := (hnested root r hr).2
  rw [children_of_form? hform] at harranged
  exact (arranged_lines hnested hlines harranged).pairwise_stopsBefore

/-- Each line of a straight-line module gives its value to names. -/
theorem StraightLine.givesTo (h : a.StraightLine root lines) (hline : line ∈ lines) :
    ∃ statement, a.GivesTo statement line.targets line.value := by
  obtain ⟨ids, -, hlines⟩ := h
  obtain ⟨id, -, statement, -, hgives⟩ := (TypeStore.exists_mem_of_forall₂ hlines).2 line hline
  exact ⟨statement, hgives⟩

/-- What is found below a plain expression is a plain expression or a text in it. -/
theorem IsPlain.of_reaches (h : a.IsPlain n) (hreach : a.Reaches n m) :
    a.IsPlain m ∨ ∃ token literal, a.form? m = some (.string token literal) := by
  induction hreach with
  | refl => exact .inl h
  | tail _ hchild ih =>
    obtain ⟨form, hform, hmem⟩ := exists_form_of_mem_children hchild
    rcases ih with hplain | ⟨token, literal, hstring⟩
    · cases hplain with
      | name hname | number hname => cases hform.symm.trans hname; cases hmem
      | text htext hstrings => cases hform.symm.trans htext; exact .inr (hstrings _ hmem)
      | tuple htuple hitems => cases hform.symm.trans htuple; exact .inl (hitems _ hmem)
      | operation hoperation hleft hright =>
        cases hform.symm.trans hoperation
        rcases List.mem_pair.1 hmem with rfl | rfl
        · exact .inl hleft
        · exact .inl hright
    · cases hform.symm.trans hstring
      cases hmem

/-- A name in the value of a line stands for the value that was given to it last on the lines
before. -/
def Reads (a : Arena) (lines : List AssignedLine) (n value : NodeId) : Prop :=
  ∃ front line back token x, lines = front ++ line :: back ∧ a.Reaches line.value n ∧
    a.form? n = some (.name token x) ∧ AssignedLine.executed front x = some value

end Arena

/-! ## The declaration that a name stands for -/

namespace Program

variable {p : Program} {root n target value : NodeId} {line : AssignedLine}
  {lines front back : List AssignedLine} {hi offset : Nat} {r s : TextRange} {x : String}
  {ds : List Declaration} {d : Declaration}

/-- Of declarations in the order of the text the last one starts last. -/
theorem latest?_eq_getLast? (h : ds.Pairwise fun d d' =>
      p.arena.startOf d.node ≤ p.arena.startOf d'.node) : p.latest? ds = ds.getLast? := by
  induction ds using List.reverseRecOn with
  | nil => rfl
  | append_singleton ds d ih =>
    obtain ⟨hds, -, hle⟩ := List.pairwise_append.1 h
    rw [Evaluation.latest?_concat, ih hds, List.getLast?_append]
    cases hlast : ds.getLast? with
    | none => rfl
    | some b =>
      exact congrArg some (if_pos (hle b (List.mem_of_getLast? hlast) d List.mem_cons_self))

/-- A declaration has taken effect behind its target, but not in the plain expression from which it
takes its value. -/
theorem precedes_ofValue (hvalue : p.arena.IsPlain value) (hr : p.arena.range? target = some r)
    (hs : p.arena.range? value = some s) : p.precedes offset (.ofValue target value) =
      (decide (r.stop ≤ offset) && !s.touches offset) := by
  have hrange : p.valueRange? (.ofValue target value) = some s := by
    unfold valueRange? Declaration.ofValue
    cases hvalue with
    | name hform | number hform | text hform | tuple hform | operation hform =>
      dsimp only
      rw [hform, hs]
  have hnode : p.arena.range? (Declaration.ofValue target value).node = some r := hr
  unfold precedes
  rw [hrange, hnode]

section StraightLine

variable (hnested : Nested p.arena hi) (h : p.arena.StraightLine root (front ++ line :: back))
  (hreach : p.arena.Reaches line.value n) (hr : p.arena.range? n = some r)
include hnested h

/-- What stands on a line stops before what stands on a line behind it. -/
theorem stopsBefore_of_front (htarget : target ∈ front.flatMap AssignedLine.nodes)
    {m : NodeId} (hm : m ∈ line.nodes) : p.arena.StopsBefore target m := by
  have hpairwise := h.pairwise hnested
  rw [List.flatMap_append, List.pairwise_append] at hpairwise
  refine hpairwise.2.2 target htarget m ?_
  rw [List.flatMap_cons]
  exact List.mem_append_left _ hm

include hreach hr

/-- What stands before the value of a line stops before what is found in the value. -/
theorem stop_le_of_before (hbefore : target ∈ front.flatMap AssignedLine.nodes ∨
      target ∈ line.targets.map (·.2)) :
    ∃ s, p.arena.range? target = some s ∧ s.stop ≤ r.start := by
  have hstops : p.arena.StopsBefore target line.value := by
    rcases hbefore with hfront | hline
    · exact stopsBefore_of_front hnested h hfront (List.mem_append_right _ List.mem_cons_self)
    · have hpairwise := h.pairwise hnested
      rw [List.flatMap_append, List.flatMap_cons, AssignedLine.nodes, List.pairwise_append,
        List.pairwise_append, List.pairwise_append] at hpairwise
      exact hpairwise.2.1.1.2.2 target hline line.value List.mem_cons_self
  obtain ⟨s, _, hs, -⟩ := id hstops
  obtain ⟨s, r', hs, hr', hle⟩ := hstops.of_reaches hnested .refl hreach ⟨s, hs⟩ ⟨r, hr⟩
  cases hr.symm.trans hr'
  exact ⟨s, hs, hle⟩

/-- What is found in the value of a line stops before what stands behind the value. -/
theorem stop_le_of_behind (hbehind : target ∈ back.flatMap AssignedLine.nodes) :
    ∃ s, p.arena.range? target = some s ∧ r.stop ≤ s.start := by
  have hpairwise := h.pairwise hnested
  rw [List.flatMap_append, List.flatMap_cons, AssignedLine.nodes, List.pairwise_append,
    List.pairwise_append] at hpairwise
  have hstops := hpairwise.2.1.2.2 line.value (by simp) target hbehind
  obtain ⟨_, s, -, hs, -⟩ := id hstops
  obtain ⟨r', s, hr', hs, hle⟩ := hstops.of_reaches hnested hreach .refl ⟨r, hr⟩ ⟨s, hs⟩
  cases hr.symm.trans hr'
  exact ⟨s, hs, hle⟩

variable (hroom : ∀ n token x r, p.arena.form? n = some (.name token x) → x ≠ "" →
  p.arena.range? n = some r → r.start < r.stop)
include hroom

/-- The declarations of the lines before that of a name have taken effect where the name stands. -/
theorem precedes_before {earlier : AssignedLine} (hearlier : earlier ∈ front)
    (htarget : (x, target) ∈ earlier.targets) :
    p.precedes r.start (.ofValue target earlier.value) = true := by
  have hnode : ∀ {m}, m ∈ earlier.nodes → m ∈ front.flatMap AssignedLine.nodes :=
    fun hm => List.mem_flatMap.2 ⟨earlier, hearlier, hm⟩
  obtain ⟨_, hgives⟩ := h.givesTo (List.mem_append_left _ hearlier)
  obtain ⟨t, ht, hle⟩ := stop_le_of_before hnested h hreach hr
    (.inl (hnode (List.mem_append_left _ (List.mem_map_of_mem htarget))))
  -- Between the value and the name stands the first name of the line, which takes room.
  obtain ⟨_, hgives'⟩ := h.givesTo (List.mem_append_right front List.mem_cons_self)
  obtain ⟨⟨y, first⟩, hfirst⟩ := List.exists_mem_of_ne_nil _ hgives'.targets_ne_nil
  have hmem : first ∈ line.targets.map (·.2) := List.mem_map_of_mem hfirst
  obtain ⟨s, f, hs, hf, hstops⟩ := stopsBefore_of_front hnested h
    (hnode (List.mem_append_right _ List.mem_cons_self)) (List.mem_append_left _ hmem)
  obtain ⟨f', hf', hfle⟩ := stop_le_of_before hnested h hreach hr (.inr hmem)
  cases hf.symm.trans hf'
  obtain ⟨token, hname, hy⟩ := hgives'.form?_target hfirst
  have hlt := hroom first token y f hname hy hf
  rw [precedes_ofValue hgives.isPlain ht hs, TextRange.touches, decide_eq_true hle,
    decide_eq_false (by omega : ¬r.start ≤ s.stop), Bool.and_false]
  rfl

/-- The declarations of the line of a name and of those behind it have not taken effect where the
name stands. -/
theorem not_precedes_behind {later : AssignedLine} (hlater : later ∈ line :: back)
    (htarget : (x, target) ∈ later.targets) :
    p.precedes r.start (.ofValue target later.value) = false := by
  obtain ⟨_, hgives⟩ := h.givesTo (List.mem_append_right front hlater)
  have hle : r.start ≤ r.stop := Nat.le_add_right _ _
  rcases List.mem_cons.1 hlater with rfl | hback
  · obtain ⟨t, ht, -⟩ := stop_le_of_before hnested h hreach hr
      (.inr (List.mem_map_of_mem htarget))
    obtain ⟨s, hs, hstart, hstop⟩ := hnested.range_of_reaches hreach hr
    rw [precedes_ofValue hgives.isPlain ht hs, TextRange.touches, decide_eq_true hstart,
      decide_eq_true (Nat.le_trans hle hstop)]
    exact Bool.and_false _
  · have hnode : ∀ {m}, m ∈ later.nodes → m ∈ back.flatMap AssignedLine.nodes :=
      fun hm => List.mem_flatMap.2 ⟨later, hback, hm⟩
    obtain ⟨t, ht, hstop⟩ := stop_le_of_behind hnested h hreach hr
      (hnode (List.mem_append_left _ (List.mem_map_of_mem htarget)))
    obtain ⟨s, hs, -⟩ := stop_le_of_behind hnested h hreach hr
      (hnode (List.mem_append_right _ List.mem_cons_self))
    obtain ⟨token, hname, hx⟩ := hgives.form?_target htarget
    have hlt := hroom target token x t hname hx ht
    rw [precedes_ofValue hgives.isPlain ht hs, decide_eq_false (by omega : ¬t.stop ≤ r.start)]
    rfl

/-- A name that is read declares nothing. -/
theorem declaration?_of_read {token : Token} {y : String}
    (hform : p.arena.form? n = some (.name token y)) (hy : y ≠ "") :
    (Bindings.ofDeclarations root
      ((front ++ line :: back).flatMap AssignedLine.declarations)).declaration? n = none := by
  refine List.lookup_eq_none_iff.2 fun entry hentry => bne_iff_ne.2 ?_
  obtain ⟨⟨x, d⟩, hd, rfl⟩ := List.mem_map.1 (List.mem_reverse.1 hentry)
  obtain ⟨other, hother, hd⟩ := List.mem_flatMap.1 hd
  obtain ⟨⟨_, target⟩, htarget, heq⟩ := List.mem_map.1 hd
  cases heq
  rintro rfl
  have hlt := hroom n token y r hform hy hr
  have hnode : n ∈ other.targets.map (·.2) := List.mem_map_of_mem htarget
  rcases List.mem_append.1 hother with hfront | hline
  · obtain ⟨s, hs, hle⟩ := stop_le_of_before hnested h hreach hr
      (.inl (List.mem_flatMap.2 ⟨other, hfront, List.mem_append_left _ hnode⟩))
    cases hr.symm.trans hs
    omega
  · rcases List.mem_cons.1 hline with rfl | hback
    · obtain ⟨s, hs, hle⟩ := stop_le_of_before hnested h hreach hr (.inr hnode)
      cases hr.symm.trans hs
      omega
    · obtain ⟨s, hs, hle⟩ := stop_le_of_behind hnested h hreach hr
        (List.mem_flatMap.2 ⟨other, hback, List.mem_append_left _ hnode⟩)
      cases hr.symm.trans hs
      omega

end StraightLine

/-- The chain of the value that a name stands for is shorter than that of the name. -/
theorem Follows.chainWithin_value {stands : NodeId → NodeId → Prop} {i : Nat}
    (h : p.Follows stands) (hstands : stands n value)
    (hchain : p.arena.ChainWithin stands (i + 1) n) : p.arena.ChainWithin stands i value := by
  obtain ⟨token, x, target, hform, -, hd, -⟩ := h n value hstands
  cases hchain with
  | @name _ _ v hstands' hrest =>
    obtain ⟨_, _, target', hform', -, hd', -⟩ := h n v hstands'
    cases hform.symm.trans hform'
    cases hd.symm.trans hd'
    exact hrest
  | number hform' | text hform' | tuple hform' | operation hform' => cases hform.symm.trans hform'

/-- What is found in the value of a line is no title of anything. -/
theorem isTitle_of_reaches {statement : NodeId} {targets : List (String × NodeId)}
    (ha : p.arena.Rooted root) (hgives : p.arena.GivesTo statement targets value)
    (hreach : p.arena.Reaches value n) : p.isTitle n = false := by
  obtain ⟨parent, form, hparent, hform, hplain⟩ : ∃ parent form, p.arena.parent? n = some parent ∧
      p.arena.form? parent = some form ∧ ((∃ left right, form = .assignment left right) ∨
        (∃ strings, form = .stringList strings) ∨ (∃ items enclosed, form = .tuple items enclosed) ∨
        ∃ op token left right enclosed, form = .binaryOperation op token left right enclosed) := by
    rcases Relation.ReflTransGen.cases_tail hreach with rfl | ⟨parent, habove, hchild⟩
    · obtain ⟨parent, left, hparent, hform⟩ := hgives.parent?_value ha
      exact ⟨parent, _, hparent, hform, .inl ⟨_, _, rfl⟩⟩
    · obtain ⟨form, hform, hmem⟩ := Arena.exists_form_of_mem_children hchild
      refine ⟨parent, form, ha.parent?_of_form? hform hmem, hform, .inr ?_⟩
      rcases hgives.isPlain.of_reaches habove with hplain | ⟨token, literal, hstring⟩
      · cases hplain with
        | name hname | number hname => cases hform.symm.trans hname; cases hmem
        | text htext _ => cases hform.symm.trans htext; exact .inl ⟨_, rfl⟩
        | tuple htuple _ => cases hform.symm.trans htuple; exact .inr (.inl ⟨_, _, rfl⟩)
        | operation hop _ _ =>
          cases hform.symm.trans hop
          exact .inr (.inr ⟨_, _, _, _, _, rfl⟩)
      · cases hform.symm.trans hstring
        cases hmem
  rw [isTitle, hparent, Option.bind_some, hform]
  rcases hplain with ⟨_, _, rfl⟩ | ⟨_, rfl⟩ | ⟨_, _, rfl⟩ | ⟨_, _, _, _, _, rfl⟩ <;> rfl

/-- Where declarations of a name come in the order of the text, and those that have taken effect
come first, the last one of these counts. -/
theorem latest?_of_precedes {before behind : List Declaration}
    (horder : before.Pairwise fun d d' => p.arena.startOf d.node ≤ p.arena.startOf d'.node)
    (hbefore : ∀ d ∈ before, p.precedes offset d = true)
    (hbehind : ∀ d ∈ behind, p.precedes offset d = false) :
    p.latest? ((before ++ behind).filter (p.precedes offset)) = before.getLast? := by
  rw [List.filter_append, List.filter_eq_self.2 hbefore,
    List.filter_eq_nil_iff.2 fun d hd => by rw [hbehind d hd]; exact Bool.false_ne_true,
    List.append_nil, latest?_eq_getLast? horder]

/-- The declarations of a name on lines come in the order of the text. -/
theorem pairwise_declared (hnested : Nested p.arena hi)
    (h : p.arena.StraightLine root (front ++ back)) :
    (AssignedLine.declared front x).Pairwise fun d d' =>
      p.arena.startOf d.node ≤ p.arena.startOf d'.node := by
  have hpairwise := h.pairwise hnested
  rw [List.flatMap_append, List.pairwise_append] at hpairwise
  have hnodes := List.pairwise_map.1 (hpairwise.1.sublist (AssignedLine.sublist_nodes front))
  refine List.pairwise_map.2 ((hnodes.sublist List.filter_sublist).imp ?_)
  rintro d d' ⟨s, s', hs, hs', hle⟩
  rw [Arena.startOf, Arena.startOf, hs, hs']
  exact Nat.le_trans (Nat.le_add_right _ _) hle

/-- A name with a declaration on lines is found to have the declarations of all lines. -/
theorem lookup?_straightLine (hd : d ∈ AssignedLine.declared lines x) :
    (Bindings.ofDeclarations root (lines.flatMap AssignedLine.declarations)).lookup?
      Bindings.moduleScope x = some (Bindings.moduleScope, AssignedLine.declared lines x) := by
  rw [Bindings.lookup?_ofDeclarations, if_neg]
  · rfl
  · intro hempty
    rw [AssignedLine.declared, List.isEmpty_iff.1 hempty] at hd
    cases hd

/-- In a straight-line module a name that is read stands for the declaration of the value that was
given to it last. -/
theorem follows_reads (ha : p.arena.Rooted root) (hnested : Nested p.arena hi)
    (hroom : ∀ n token x r, p.arena.form? n = some (.name token x) → x ≠ "" →
      p.arena.range? n = some r → r.start < r.stop)
    (hbindings : p.bindings = Bindings.ofTree p.arena root)
    (h : p.arena.StraightLine root lines) : p.Follows (p.arena.Reads lines) := by
  rintro n value ⟨front, line, back, token, x, rfl, hreach, hform, hexecuted⟩
  obtain ⟨r, hr⟩ := Arena.exists_range (Arena.kind?_of_form? hform)
  obtain ⟨_, hgives⟩ := h.givesTo (List.mem_append_right front List.mem_cons_self)
  have hlisted := hbindings.trans (Bindings.ofTree_straightLine ha h)
  -- The last declaration of the name on the lines before has the value.
  obtain ⟨d, hlast, hsource⟩ := Option.bind_eq_some_iff.1
    ((AssignedLine.executed_eq front x).symm.trans hexecuted)
  have hd := List.mem_of_getLast? hlast
  obtain ⟨earlier, hearlier, target, htarget, rfl⟩ := AssignedLine.mem_declared hd
  obtain rfl := Option.some.inj hsource
  obtain ⟨_, hgiven⟩ := h.givesTo (List.mem_append_left _ hearlier)
  obtain ⟨-, -, hx⟩ := hgiven.form?_target htarget
  have hall := AssignedLine.declared_append front (line :: back) x
  have hmem := List.mem_append_left (AssignedLine.declared (line :: back) x) hd
  rw [← hall] at hmem
  have hlookup : p.bindings.lookup? Bindings.moduleScope x =
      some (Bindings.moduleScope, AssignedLine.declared (front ++ line :: back) x) := by
    rw [hlisted]
    exact lookup?_straightLine hmem
  refine ⟨token, x, target, hform, isTitle_of_reaches ha hgives hreach, ?_, ?_⟩
  · have hscope : p.bindings.scopeContaining p.arena n = Bindings.moduleScope := by
      rw [hlisted, Bindings.scopeContaining_ofDeclarations]
    have hfree : p.bindings.declaration? n = none := by
      rw [hlisted]
      exact declaration?_of_read hnested h hreach hr hroom hform hx
    have hbefore : ∀ d ∈ AssignedLine.declared front x, p.precedes r.start d = true := by
      intro d hd
      obtain ⟨earlier, hearlier, target, htarget, rfl⟩ := AssignedLine.mem_declared hd
      exact precedes_before hnested h hreach hr hroom hearlier htarget
    have hbehind : ∀ d ∈ AssignedLine.declared (line :: back) x,
        p.precedes r.start d = false := by
      intro d hd
      obtain ⟨later, hlater, target, htarget, rfl⟩ := AssignedLine.mem_declared hd
      exact not_precedes_behind hnested h hreach hr hroom hlater htarget
    have hstart : p.arena.startOf n = r.start := by rw [Arena.startOf, hr]; rfl
    unfold standsFor?
    dsimp only
    rw [hfree, Option.none_or, hscope, hlookup, Option.bind_eq_bind, Option.bind_some, hstart,
      if_pos rfl, hall, latest?_of_precedes (pairwise_declared hnested h) hbefore hbehind, hlast]
  · have hknown := Bindings.knows_of_lookup? hlookup hmem
    rw [hbindings] at hknown ⊢
    exact Bindings.declaration?_of_knows ha hknown

end Program

namespace Checker

variable {name text : String} {c c' : Checker} {lines : List AssignedLine} {n value : NodeId}

/-- The checkers for a file that have been asked for nothing but the types of expressions with chains
that the guards allow. -/
inductive Executes (file : SourceFile) (lines : List AssignedLine) : Checker → Prop
  | start : Executes file lines file.checker
  | answered {c c' : Checker} {n : NodeId} {t : Option TypeId} (h : Executes file lines c)
    (hchain : file.parsed.arena.ChainWithin (file.parsed.arena.Reads lines) Guard.evaluationLimit n)
    (ht : c.typeOf? n = some (t, c')) : Executes file lines c'

/-- Checkers that are asked for the types of such expressions are checkers for the file. -/
theorem Executes.reached {file : SourceFile} (h : Executes file lines c) : Reached file c := by
  induction h with
  | start => exact .start
  | answered _ _ ht ih => exact .answered (q := .node _) ih trivial ht

section StraightLine

variable (hlines : (ParsedText.ofText text).arena.StraightLine (ParsedText.ofText text).root lines)
include hlines

/-- In the program of a checker for a straight-line module names stand for the values that were given
to them last. -/
theorem Reached.follows (h : Reached (SourceFile.ofText name text) c) :
    c.program.Follows (c.program.arena.Reads lines) := by
  obtain ⟨hrooted, hbindings⟩ := h.rooted
  have harena : c.program.arena = (ParsedText.ofText text).arena := by rw [h.program_eq]; rfl
  refine Program.follows_reads hrooted (harena ▸ ParsedText.nested_ofText text) ?_ hbindings ?_ <;>
    rw [harena]
  · exact fun n token x r => ParsedText.lt_of_name
  · exact hlines

/-- A settled checker for a straight-line module has a type for every expression with a chain that
the guards allow, and stays settled. -/
theorem Reached.finds (h : Reached (SourceFile.ofText name text) c)
    (hsettled : c.memory.Settled c.program (c.program.arena.Reads lines))
    (hchain : c.program.arena.ChainWithin (c.program.arena.Reads lines) Guard.evaluationLimit n) :
    ∃ t c', c.typeOf? n = some (some t, c') ∧ c'.program = c.program ∧
      c.memory.Finds c.program (c.program.arena.Reads lines) n t c'.memory := by
  have hbuiltins : c.program.builtins = Builtins.foreknown.1 := by rw [h.program_eq]
  have hadmits : c.memory.Admits c.program (c.program.arena.Reads lines)
      Guard.evaluationLimit (Guard.evaluationLimit - 1) := by
    obtain ⟨hnodes, hdeclarations, -⟩ := h.idle
    refine ⟨?_, ?_, ?_, ?_⟩
    · rw [hnodes]; decide
    · rw [hnodes]; exact nofun
    · rw [hdeclarations]; decide
    · rw [hdeclarations]; exact nofun
  obtain ⟨t, m', hanswer, hfinds⟩ := Evaluation.answers_node h.sound.tree hbuiltins
    (h.follows hlines) _ hchain h.regular hsettled hadmits
  refine ⟨t, { c with memory := m' }, ?_, rfl, hfinds⟩
  rw [typeOf?, ask?, hanswer]
  rfl

/-- What such a checker answers for a name that is read is also kept of the value of the name. -/
theorem Reached.name_finds (h : Reached (SourceFile.ofText name text) c)
    (hsettled : c.memory.Settled c.program (c.program.arena.Reads lines))
    (hread : c.program.arena.Reads lines n value)
    (hchain : c.program.arena.ChainWithin (c.program.arena.Reads lines) Guard.evaluationLimit n) :
    ∃ t c', c.typeOf? n = some (some t, c') ∧ c'.memory.nodeTypes.lookup value = some t ∧
      c.memory.Finds c.program (c.program.arena.Reads lines) n t c'.memory := by
  obtain ⟨t, c', hanswer, -, hfinds⟩ := h.finds hlines hsettled hchain
  exact ⟨t, c', hanswer, (hfinds.nodes _ n t hchain hfinds.kept).2 value hread, hfinds⟩

/-- A checker that has only been asked for such types is settled. -/
theorem Executes.settled (h : Executes (SourceFile.ofText name text) lines c) :
    c.memory.Settled c.program (c.program.arena.Reads lines) := by
  induction h with
  | start =>
    obtain ⟨b, s, -, hstart⟩ := checker_eq (SourceFile.ofText name text)
    rw [hstart]
    exact ⟨nofun, nofun⟩
  | answered h hchain ht ih =>
    rw [← show _ = (SourceFile.ofText name text).parsed.arena from
      congrArg Program.arena h.reached.program_eq] at hchain
    obtain ⟨t, c', hanswer, hprogram, hfinds⟩ := h.reached.finds hlines ih hchain
    cases ht.symm.trans hanswer
    rw [hprogram]
    exact hfinds.toSettled

/-- In a straight-line module a name that is read has the very type of the value that was given to
it last on the lines before, if the chain of what it depends on is no longer than the guards allow,
whichever of the two is asked for first, and whatever else of this kind has been asked before. -/
theorem name_eq_value (h : Executes (SourceFile.ofText name text) lines c)
    (hread : (ParsedText.ofText text).arena.Reads lines n value)
    (hchain : (ParsedText.ofText text).arena.ChainWithin
      ((ParsedText.ofText text).arena.Reads lines) Guard.evaluationLimit n) :
    (∃ t c', c.typeOf? n = some (some t, c') ∧ c'.typeOf? value = some (some t, c')) ∧
      ∃ t c' c'', c.typeOf? value = some (some t, c') ∧ c'.typeOf? n = some (some t, c'') := by
  have hreached := h.reached
  rw [← show _ = (ParsedText.ofText text).arena from
    congrArg Program.arena hreached.program_eq] at hread hchain
  have hsettled := h.settled hlines
  refine ⟨?_, ?_⟩
  · obtain ⟨t, c', hanswer, hvalue, -⟩ := hreached.name_finds hlines hsettled hread hchain
    refine ⟨t, c', hanswer, ?_⟩
    rw [typeOf?, ask?, Query.answer_node_of_kept hvalue]
    rfl
  · have hshorter := (hreached.follows hlines).chainWithin_value hread hchain
    obtain ⟨t, c1, hanswer, hprogram, hfinds⟩ :=
      hreached.finds hlines hsettled (hshorter.mono (Nat.le_succ _))
    have hreached1 := Reached.answered (q := .node value) hreached trivial hanswer
    have hsettled1 := hfinds.toSettled
    rw [← hprogram] at hread hchain hsettled1
    obtain ⟨t', c2, hanswer', hvalue, hfinds'⟩ :=
      hreached1.name_finds hlines hsettled1 hread hchain
    -- The type of the value has stayed.
    obtain rfl := Option.some.inj ((hfinds'.nodeTypes value t hfinds.kept).symm.trans hvalue)
    exact ⟨t, c1, c2, hanswer, hanswer'⟩

end StraightLine

/-- On a line that gives a new value to a name from which it takes it: behind it both names of the
line have the type of the value that the name had before. -/
theorem name_eq_value_chained :
    let c := (SourceFile.ofText "a.py" "x = 1\nx = y = x\nz = y\n").checker
    (∃ t c', c.typeOf? 11 = some (some t, c') ∧ c'.typeOf? 6 = some (some t, c')) ∧
      ∃ t c' c'', c.typeOf? 6 = some (some t, c') ∧ c'.typeOf? 11 = some (some t, c'') := by
  let parsed := ParsedText.ofText "x = 1\nx = y = x\nz = y\n"
  obtain ⟨hroot, hmodule⟩ : parsed.root = 14 ∧
      parsed.arena.form? 14 = some (.module [3, 9, 13]) := by decide +kernel
  obtain ⟨h0, h1, h2, h3⟩ :
      parsed.arena.form? 0 = some (.name ⟨⟨0, 1⟩, .identifier "x"⟩ "x") ∧
      parsed.arena.form? 1 = some (.number ⟨.int 1, true, false⟩) ∧
      parsed.arena.form? 2 = some (.assignment 0 1) ∧
      parsed.arena.form? 3 = some (.statementList [2]) := by decide +kernel
  obtain ⟨h4, h5, h6, h7, h8, h9⟩ :
      parsed.arena.form? 4 = some (.name ⟨⟨6, 1⟩, .identifier "x"⟩ "x") ∧
      parsed.arena.form? 5 = some (.name ⟨⟨10, 1⟩, .identifier "y"⟩ "y") ∧
      parsed.arena.form? 6 = some (.name ⟨⟨14, 1⟩, .identifier "x"⟩ "x") ∧
      parsed.arena.form? 7 = some (.assignment 5 6) ∧
      parsed.arena.form? 8 = some (.assignment 4 7) ∧
      parsed.arena.form? 9 = some (.statementList [8]) := by decide +kernel
  obtain ⟨h10, h11, h12, h13⟩ :
      parsed.arena.form? 10 = some (.name ⟨⟨16, 1⟩, .identifier "z"⟩ "z") ∧
      parsed.arena.form? 11 = some (.name ⟨⟨20, 1⟩, .identifier "y"⟩ "y") ∧
      parsed.arena.form? 12 = some (.assignment 10 11) ∧
      parsed.arena.form? 13 = some (.statementList [12]) := by decide +kernel
  let first : AssignedLine := ⟨[("x", 0)], 1⟩
  let second : AssignedLine := ⟨[("x", 4), ("y", 5)], 6⟩
  let third : AssignedLine := ⟨[("z", 10)], 11⟩
  have hlines : parsed.arena.StraightLine parsed.root [first, second, third] := by
    rw [hroot]
    exact ⟨_, hmodule, .cons ⟨2, h3, .last h2 h0 (by decide) (.number h1)⟩
      (.cons ⟨8, h9, .chained h8 h4 (by decide) (.last h7 h5 (by decide) (.name h6))⟩
        (.cons ⟨12, h13, .last h12 h10 (by decide) (.name h11)⟩ .nil))⟩
  have hinner : parsed.arena.Reads [first, second, third] 6 1 :=
    ⟨[first], second, [third], _, "x", rfl, .refl, h6, by decide⟩
  have hread : parsed.arena.Reads [first, second, third] 11 6 :=
    ⟨[first, second], third, [], _, "y", rfl, .refl, h11, by decide⟩
  exact name_eq_value hlines .start hread (.name hread (.name hinner (.number h1)))

end Checker

end TypeProbe
