import TypeProbe.Label
import TypeProbe.Text.Json
import TypeProbe.Text.Position

/-!
# Texts on one line

A text is on one line if it holds no line feed (`OneLine`). Numbers, spans and flags are, and so is
every value of the data format if it is written without blanks: what it quotes is escaped
(`Json.oneLine_compact`).
-/

namespace TypeProbe

/-- A text holds no line feed. -/
def OneLine (s : String) : Prop := '\n' ∉ s.toList

instance (s : String) : Decidable (OneLine s) := inferInstanceAs (Decidable ('\n' ∉ s.toList))

@[simp] theorem oneLine_append {s t : String} : OneLine (s ++ t) ↔ OneLine s ∧ OneLine t := by
  simp [OneLine]

@[simp] theorem oneLine_toString {s : String} : OneLine (toString s) ↔ OneLine s := Iff.rfl

@[simp] theorem oneLine_ofList {cs : List Char} : OneLine (String.ofList cs) ↔ '\n' ∉ cs := by
  simp [OneLine]

/-- Texts on one line with such a text between them are on one line together. -/
theorem oneLine_intercalate {s : String} {texts : List String} (hs : OneLine s)
    (h : ∀ t ∈ texts, OneLine t) : OneLine (s.intercalate texts) := by
  induction texts with
  | nil => rw [String.intercalate_nil]; decide
  | cons t texts ih =>
    have ht : OneLine t := h t List.mem_cons_self
    cases texts with
    | nil => rwa [String.intercalate_singleton]
    | cons t' texts =>
      rw [String.intercalate_cons_cons, oneLine_append, oneLine_append]
      exact ⟨⟨ht, hs⟩, ih fun u hu => h u (List.mem_cons_of_mem t hu)⟩

/-! ## Numbers -/

/-- The digits of a number are no line feeds. -/
theorem lineFeed_notMem_toDigits (n : Nat) : '\n' ∉ Nat.toDigits 10 n := by
  intro hmem
  exact absurd (Nat.isDigit_of_mem_toDigits (by decide) (by decide) hmem) (by decide)

@[simp] theorem oneLine_repr (n : Nat) : OneLine n.repr := by
  simpa [OneLine] using lineFeed_notMem_toDigits n

@[simp] theorem oneLine_nat (n : Nat) : OneLine (toString n) := oneLine_repr n

@[simp] theorem oneLine_int (n : Int) : OneLine n.repr := by
  rw [Int.repr_eq_if]
  split
  · exact oneLine_repr _
  · simp +decide

namespace Decimal

@[simp] theorem oneLine_zeros (n : Nat) : OneLine (zeros n) := by
  simp [zeros]

/-- Digits are written on one line, if what ends whole numbers is. -/
theorem Format.oneLine_digitsText {format : Format} (h : OneLine format.wholeEnd) (x : Digits) :
    OneLine (format.digitsText x) := by
  have hdigits := lineFeed_notMem_toDigits x.digits
  simp only [Format.digitsText]
  generalize Nat.toDigits 10 x.digits = digits at hdigits
  -- With or without a power of ten, what is not a digit is a point or another mark of one line.
  split
  · split
    · simp +decide [hdigits]
    · split
      · simp [h, hdigits]
      · have htake : '\n' ∉ digits.take x.point.toNat := fun h => hdigits (List.mem_of_mem_take h)
        have hdrop : '\n' ∉ digits.drop x.point.toNat := fun h => hdigits (List.mem_of_mem_drop h)
        rw [oneLine_append, oneLine_append]
        exact ⟨⟨oneLine_ofList.2 htake, by decide⟩, oneLine_ofList.2 hdrop⟩
  · have hmark : OneLine (if 0 < x.point then "e+" else "e") := by split <;> decide
    split
    · rename_i first second rest
      have hmantissa : '\n' ∉ first :: '.' :: second :: rest := by
        simpa using hdigits
      rw [oneLine_append, oneLine_append, oneLine_ofList]
      exact ⟨⟨hmantissa, hmark⟩, oneLine_int _⟩
    · simp [hmark, hdigits]

/-- A number is written on one line, if the texts of its format are. -/
theorem Format.oneLine_text {format : Format} (hwhole : OneLine format.wholeEnd)
    (hinfinity : ∀ negative, OneLine (format.infinity negative)) (hnan : OneLine format.noNumber)
    (x : Binary64) : OneLine (format.text x) := by
  cases x with
  | nan => exact hnan
  | infinite negative => exact hinfinity negative
  | finite negative significand exponent =>
    rw [Format.text, oneLine_append]
    constructor
    · cases negative <;> decide
    · split
      · exact oneLine_append.2 ⟨by decide, hwhole⟩
      · exact Format.oneLine_digitsText hwhole _

@[simp] theorem oneLine_compactFormat (x : Binary64) : OneLine (compactFormat.text x) :=
  Format.oneLine_text (by decide) (fun negative => by cases negative <;> decide) (by decide) x

@[simp] theorem oneLine_plainFormat (x : Binary64) : OneLine (plainFormat.text x) :=
  Format.oneLine_text (by decide) (fun negative => by cases negative <;> decide) (by decide) x

end Decimal

/-! ## Places -/

@[simp] theorem oneLine_position (p : Position) : OneLine p.text := by
  simp +decide [Position.text]

@[simp] theorem oneLine_spanText (lines : LineMap) (r : TextRange) :
    OneLine (lines.spanText r) := by
  simp +decide [LineMap.spanText, Span.text]

/-! ## Flags -/

/-- Flags are shown on one line, if their labels are. -/
theorem Flags.oneLine_text {α : Type} [FlagLabelled α] (h : ∀ a : α, OneLine (label a))
    (s : Flags α) : OneLine s.text := by
  unfold Flags.text
  split
  · decide
  · refine oneLine_intercalate (by decide) fun t ht => ?_
    obtain ⟨a, -, rfl⟩ := List.mem_map.1 ht
    exact h a

/-! ## Values of the data format -/

namespace Json

/-- A hexadecimal digit is no line feed. -/
theorem hexDigit_ne_lineFeed (n : Nat) : hexDigit n ≠ '\n' := by
  have hall : ∀ k : Fin 16, (Nat.toDigits 16 k).headD '0' ≠ '\n' := by decide
  exact hall ⟨n % 16, Nat.mod_lt n (by decide)⟩

/-- An escaped character holds no line feed. -/
theorem lineFeed_notMem_escapeChar (c : Char) : '\n' ∉ escapeChar c := by
  -- The line feed has an escape of its own, and no escape holds one.
  by_cases hfeed : c = '\n'
  · subst hfeed
    decide
  · have hhigh := hexDigit_ne_lineFeed (c.toNat / 16)
    have hlow := hexDigit_ne_lineFeed c.toNat
    simp only [escapeChar, if_neg hfeed]
    repeat' split
    all_goals simp [hhigh.symm, hlow.symm, Ne.symm hfeed]

@[simp] theorem oneLine_quote (s : String) : OneLine (quote s) := by
  rw [quote, oneLine_ofList]
  simpa using fun c _ => lineFeed_notMem_escapeChar c

/-- What is neither a list nor a record is written on one line. -/
theorem oneLine_leafText (value : Json) : OneLine value.leafText := by
  cases value with
  | null => decide
  | bool b => cases b <;> decide
  | int n => exact oneLine_int n
  | float x => exact Decimal.oneLine_compactFormat x
  | text s => exact oneLine_quote s
  | list items => rw [leafText]; decide
  | record fields => rw [leafText]; decide

mutual

/-- A value without blanks is on one line. -/
theorem oneLine_compact : ∀ value : Json, OneLine value.compact
  | .list (item :: items) => by
    simp +decide [compact, oneLine_compact item, oneLine_compactItems items]
  | .record ((name, value) :: fields) => by
    simp +decide [compact, oneLine_compact value, oneLine_compactFields fields]
  | .list [] | .record [] | .null => by decide
  | .bool b => oneLine_leafText (.bool b)
  | .int n => oneLine_leafText (.int n)
  | .float x => oneLine_leafText (.float x)
  | .text s => oneLine_leafText (.text s)

/-- So are further items. -/
theorem oneLine_compactItems : ∀ items : List Json, OneLine (compactItems items)
  | [] => by decide
  | item :: items => by
    simp +decide [compactItems, oneLine_compact item, oneLine_compactItems items]

/-- So are further fields. -/
theorem oneLine_compactFields : ∀ fields : List (String × Json), OneLine (compactFields fields)
  | [] => by decide
  | (name, value) :: fields => by
    simp +decide [compactFields, oneLine_compact value, oneLine_compactFields fields]

end

end Json

end TypeProbe
