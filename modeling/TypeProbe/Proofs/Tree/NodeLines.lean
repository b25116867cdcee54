import TypeProbe.Proofs.Spelling
import TypeProbe.Proofs.Text.OneLine
import TypeProbe.Tree.Printer

/-!
# The line of a node

The line of a node is one line but for the text that a string stands for, which is written into it
as it is (`Form.quotedText`): labels, numbers and places hold no line feed, a token is written as a
value of the data format, which escapes what it quotes, and a name is a word of the text
(`ParsedText.nodeLine_parts`). In front of all this is the id of the node between brackets
(`nodeLine_front`).
-/

namespace TypeProbe

/-! ## Labels -/

@[simp] theorem oneLine_tokenKind (kind : TokenKind) : OneLine (label kind) := by
  cases kind <;> decide

@[simp] theorem oneLine_newLineKind (kind : NewLineKind) : OneLine (label kind) := by
  cases kind <;> decide

@[simp] theorem oneLine_operator (op : Operator) : OneLine (label op) := by
  cases op <;> decide

@[simp] theorem oneLine_stringFlag (flag : StringFlag) : OneLine (label flag) := by
  cases flag <;> decide

@[simp] theorem oneLine_errorCategory (category : ErrorCategory) : OneLine (label category) := by
  cases category <;> decide

@[simp] theorem oneLine_argumentCategory (category : ArgumentCategory) :
    OneLine (label category) := by
  cases category <;> decide

@[simp] theorem oneLine_parameterCategory (category : ParameterCategory) :
    OneLine (label category) := by
  cases category <;> decide

/-- What is looked up in a table whose texts are on one line is on one line. -/
theorem oneLine_lookup {α : Type} {table : List α} (text : α → String)
    (h : ∀ row ∈ table, OneLine (text row)) (p : α → Bool) :
    OneLine (((table.find? p).map text).getD "") := by
  cases hfound : table.find? p with
  | none =>
    rw [Option.map_none, Option.getD_none]
    decide
  | some row => exact h row (List.mem_of_find?_eq_some hfound)

@[simp] theorem oneLine_keyword (keyword : Keyword) : OneLine (label keyword) :=
  oneLine_lookup (fun row : Keyword × String × String => row.2.1) (by decide +kernel) _

@[simp] theorem oneLine_nodeKind (kind : NodeKind) : OneLine (label kind) :=
  oneLine_lookup Prod.snd (by decide +kernel) _

@[simp] theorem oneLine_flagText (b : Bool) : OneLine (flagText b) := by
  cases b <;> decide

/-! ## Tokens -/

/-- A token is written on one line, whatever text it has come from. -/
@[simp] theorem Token.oneLine_text (lines : LineMap) (t : Token) : OneLine (t.text lines) := by
  have hdetails : ∀ s ∈ t.details, OneLine s := by
    obtain ⟨range, lexeme⟩ := t
    cases lexeme with
    | string literal =>
      have hflags := Flags.oneLine_text oneLine_stringFlag literal.flags
      simp +decide [Token.details, hflags]
    | _ => simp [Token.details]
  have hparts : OneLine (", ".intercalate
      ([label t.kind] ++ t.details ++ [lines.spanText t.range])) := by
    refine oneLine_intercalate (by decide) fun s hs => ?_
    rcases List.mem_append.1 hs with hs | hs
    · rcases List.mem_append.1 hs with hs | hs
      · exact List.mem_singleton.1 hs ▸ oneLine_tokenKind t.kind
      · exact hdetails s hs
    · exact List.mem_singleton.1 hs ▸ oneLine_spanText lines t.range
  have hrecord : OneLine t.toJson.compact := Json.oneLine_compact t.toJson
  simp +decide only [Token.text, oneLine_append, hparts, hrecord]

/-! ## Nodes -/

@[simp] theorem NumberValue.oneLine_text (value : NumberValue) : OneLine value.text := by
  cases value with
  | int n => exact oneLine_repr n
  | float x => exact Decimal.oneLine_plainFormat x

/-- The text that a string or a format string stands for. -/
def Form.quotedText? : Form → Option String
  | .string _ literal | .formatString _ literal => some literal.value
  | _ => none

/-- What is shown of a construct without quoted text is on one line, if a name is. -/
theorem Form.oneLine_details (lines : LineMap) {form : Form} (hquoted : form.quotedText? = none)
    (hname : ∀ token value, form = .name token value → OneLine value) :
    OneLine (form.details lines) := by
  -- The equations of a definition with so many cases are slow to derive, so it is only unfolded.
  delta Form.details
  cases form with
  | string | formatString => exact absurd hquoted (Option.some_ne_none _)
  | name token value =>
    have hvalue : OneLine value := hname token value rfl
    simp only [oneLine_append, oneLine_toString, Token.oneLine_text, hvalue, and_true]
    decide
  | importFrom module imports wildcard usesParens missingImportKeyword =>
    have hwildcard : OneLine ((wildcard.map (Token.text lines)).getD "N/A") := by
      cases wildcard with
      | none =>
        rw [Option.map_none, Option.getD_none]
        decide
      | some token => exact token.oneLine_text lines
    dsimp only
    generalize (wildcard.map (Token.text lines)).getD "N/A" = shown at hwildcard ⊢
    simp only [oneLine_append, oneLine_toString, hwildcard, oneLine_flagText, and_true]
    decide
  | _ =>
    simp only [oneLine_append, oneLine_toString, Token.oneLine_text, oneLine_operator,
      oneLine_keyword, oneLine_argumentCategory, oneLine_parameterCategory, oneLine_errorCategory,
      oneLine_flagText, NumberValue.oneLine_text, oneLine_nat, and_true]
    decide

/-- The text that a string stands for is shown between texts on one line. -/
theorem Form.details_of_quotedText? (lines : LineMap) {form : Form} {quoted : String}
    (hquoted : form.quotedText? = some quoted) :
    ∃ front back, form.details lines = front ++ quoted ++ back ∧ OneLine front ∧ OneLine back := by
  have hparts : ∀ (token : Token) (literal : StringLiteral),
      OneLine (toString " " ++ toString (token.text lines) ++ toString " ") ∧
        OneLine (s!" unescape errors:({flagText literal.hasUnescapeErrors})") := by
    intro token literal
    simp only [oneLine_append, oneLine_toString, Token.oneLine_text, oneLine_flagText, and_true]
    decide
  cases form with
  | string token literal | formatString token literal =>
    obtain rfl : literal.value = quoted := Option.some.inj hquoted
    obtain ⟨hfront, hback⟩ := hparts token literal
    refine ⟨_, _, ?_, hfront, hback⟩
    delta Form.details
    simp only [toString, String.append_assoc]
  | _ => cases hquoted

/-- The line of a node starts with its id between brackets. -/
theorem nodeLine_front (lines : LineMap) (id : NodeId) (node : Node) :
    ∃ rest, (nodeLine lines id node).toList = '[' :: (Nat.toDigits 10 id ++ ']' :: rest) := by
  have hdigits : (toString id).toList = Nat.toDigits 10 id := by simp
  simp only [nodeLine, String.toList_append, List.append_assoc, hdigits]
  exact ⟨_, rfl⟩

/-- What stands in front of the details in the line of a node is on one line. -/
theorem nodeLine_eq (lines : LineMap) (id : NodeId) (node : Node) :
    ∃ front, nodeLine lines id node = front ++ node.form.details lines ∧ OneLine front := by
  refine ⟨_, rfl, ?_⟩
  simp only [oneLine_append, oneLine_toString, oneLine_nat, oneLine_nodeKind, oneLine_spanText,
    and_true]
  decide

/-- A text on one line has no line feeds to count. -/
theorem OneLine.count_eq {s : String} (h : OneLine s) : s.toList.count '\n' = 0 :=
  List.count_eq_zero.2 h

/-- The line of a node holds the line feeds of the text that a string stands for, and no other ones,
if a name is on one line. -/
theorem count_nodeLine (lines : LineMap) (id : NodeId) {node : Node}
    (hname : ∀ token value, node.form = .name token value → OneLine value) :
    (nodeLine lines id node).toList.count '\n' =
      (node.form.quotedText?.getD "").toList.count '\n' := by
  obtain ⟨front, hline, hfront⟩ := nodeLine_eq lines id node
  rw [hline, String.toList_append, List.count_append, hfront.count_eq, Nat.zero_add]
  cases hquoted : node.form.quotedText? with
  | none => exact (Form.oneLine_details lines hquoted hname).count_eq
  | some quoted =>
    obtain ⟨front, back, hdetails, hfront, hback⟩ := Form.details_of_quotedText? lines hquoted
    rw [hdetails, String.toList_append, String.toList_append, List.count_append, List.count_append,
      hfront.count_eq, hback.count_eq, Nat.zero_add, Nat.add_zero, Option.getD_some]

namespace ParsedText

/-- In the tree of a text every name is on one line: it is without text, or it is a word. -/
theorem oneLine_of_name {text : String} {n : NodeId} {token : Token} {value : String}
    (hform : (ofText text).arena.form? n = some (.name token value)) : OneLine value := by
  by_cases hvalue : value = ""
  · subst hvalue
    decide
  · obtain ⟨node, hnode, -⟩ := Option.map_eq_some_iff.1 hform
    have hrange : (ofText text).arena.range? n = some node.range := by
      rw [Arena.range?, hnode]
      rfl
    obtain ⟨t, ht, hsays, -⟩ := exists_token hform (Form.lexeme?_name token hvalue) hrange
    intro hfeed
    exact absurd (Tokens.continuesWord_of_identifier ht hsays '\n' hfeed) (by decide)

end ParsedText

end TypeProbe
