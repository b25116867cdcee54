import TypeProbe.Proofs.Written.Words
import TypeProbe.Tree.Grammar.Expression

/-!
# Expressions as trees and as words

An `Expression` is a tree of names, whole numbers and operators. `Expression.words` writes it with
parentheses only around the operands that bind less than their place asks for: the levels are those
of `Operator.binaryPrecedence?`, with conditional expressions below all of them, negations, signs
and atoms between and above them. `Expression.nesting` counts how deep its parts are nested.
-/

namespace TypeProbe

/-- A binary operator and how strongly it binds. -/
structure BinaryOperator where
  /-- The operator. -/
  operator : Operator
  /-- How strongly it binds. -/
  strength : Nat
  /-- The operator is binary and binds so. -/
  binds : operator.binaryPrecedence? = some strength
deriving DecidableEq

/-- An operator that stands before its operand and is spelled by a sign. -/
structure Sign where
  /-- The operator. -/
  operator : Operator
  /-- It stands before its operand. -/
  isSign : Grammar.isSign operator = true
deriving DecidableEq

/-- Expressions of names and whole numbers. -/
inductive Expression where
  /-- A name. -/
  | name (n : Identifier)
  /-- A whole number. -/
  | integer (n : Nat)
  /-- An operand with a sign. -/
  | signed (sign : Sign) (operand : Expression)
  /-- A negated operand. -/
  | negation (operand : Expression)
  /-- Two operands of a binary operator. -/
  | binary (op : BinaryOperator) (left right : Expression)
  /-- One expression if a condition holds, and another one else. -/
  | conditional (value condition otherwise : Expression)
deriving DecidableEq

/-! ## Levels -/

/-- The level of atoms, which bind most. -/
def atomLevel : Nat := 13

/-- The level of operands with a sign. -/
def signLevel : Nat := 11

/-- The level of negations. -/
def negationLevel : Nat := 3

/-- The level of the operands of a condition. -/
def conditionLevel : Nat := 1

namespace BinaryOperator

variable (op : BinaryOperator)

/-- Powers are grouped from the right. -/
def IsPower : Prop := op.operator = .power

instance : Decidable op.IsPower := inferInstanceAs (Decidable (op.operator = .power))

/-- The least level of the left operand: powers take atoms. -/
def leftLevel : Nat := if op.IsPower then atomLevel else op.strength

/-- The least level of the right operand: powers take signs. -/
def rightLevel : Nat := if op.IsPower then signLevel else op.strength + 1

/-- The words of the operator. -/
def words : List Word :=
  match op.operator with
  | .or => [.keyword .or]
  | .and => [.keyword .and]
  | .is => [.keyword .is]
  | .isNot => [.keyword .is, .keyword .not]
  | .in => [.keyword .in]
  | .notIn => [.keyword .not, .keyword .in]
  | symbol => [.symbol symbol]

end BinaryOperator

namespace Expression

/-- How strongly an expression binds. -/
def level : Expression → Nat
  | .name _ | .integer _ => atomLevel
  | .signed .. => signLevel
  | .negation _ => negationLevel
  | .binary op .. => op.strength
  | .conditional .. => 0

/-- Words between parentheses, where they are needed. -/
def enclosed (needed : Prop) [Decidable needed] (words : List Word) : List Word :=
  if needed then .opening :: (words ++ [.closing]) else words

/-- The words of an expression without parentheses around it. -/
def bare : Expression → List Word
  | .name n => [.name n]
  | .integer n => [.integer n]
  | .signed sign operand =>
    .symbol sign.operator :: enclosed (operand.level < signLevel) operand.bare
  | .negation operand => .keyword .not :: enclosed (operand.level < negationLevel) operand.bare
  | .binary op left right =>
    enclosed (left.level < op.leftLevel) left.bare ++ op.words ++
      enclosed (right.level < op.rightLevel) right.bare
  | .conditional value condition otherwise =>
    enclosed (value.level < conditionLevel) value.bare ++ .keyword .if ::
      (enclosed (condition.level < conditionLevel) condition.bare ++ .keyword .else ::
        otherwise.bare)

/-- The words of an expression where the least level is given. -/
def words (e : Expression) (least : Nat) : List Word := enclosed (e.level < least) e.bare

/-- How deep a part is nested, by one more between parentheses. -/
def deeper (needed : Prop) [Decidable needed] (depth : Nat) : Nat :=
  if needed then depth + 1 else depth

/-- How deep the parts of an expression are nested: within parentheses, behind a sign, a negation or
the mark of a power, and where the condition does not hold. -/
def depth : Expression → Nat
  | .name _ | .integer _ => 0
  | .signed _ operand => deeper (operand.level < signLevel) operand.depth + 1
  | .negation operand => deeper (operand.level < negationLevel) operand.depth + 1
  | .binary op left right =>
    max (deeper (left.level < op.leftLevel) left.depth)
      (deeper op.IsPower (deeper (right.level < op.rightLevel) right.depth))
  | .conditional value condition otherwise =>
    max (deeper (value.level < conditionLevel) value.depth)
      (max (deeper (condition.level < conditionLevel) condition.depth) (otherwise.depth + 1))

/-- How deep the parts of an expression are nested where the least level is given. -/
def nesting (e : Expression) (least : Nat) : Nat := deeper (e.level < least) e.depth

/-- The text of an expression. -/
def text (e : Expression) : String := String.ofList (spelled e.bare)

/-- Differences are grouped from the left, powers from the right. -/
example :
    let minus (left right : Expression) : Expression := .binary ⟨.subtract, 9, rfl⟩ left right
    let power (left right : Expression) : Expression := .binary ⟨.power, 12, rfl⟩ left right
    (minus (minus (.integer 1) (.integer 2)) (minus (.integer 3) (.integer 4))).text =
        "1 - 2 - ( 3 - 4 )" ∧
      (power (power (.integer 1) (.integer 2)) (power (.integer 3) (.integer 4))).text =
        "( 1 ** 2 ) ** 3 ** 4" := by decide +kernel

end Expression

/-! ## The words of an expression -/

namespace Lexeme

/-- The level of the expressions that a lexeme opens. -/
def opens? : Lexeme → Option Nat
  | .identifier _ | .number _ | .openParenthesis => some atomLevel
  | .operator op => if Grammar.isSign op then some signLevel else none
  | .keyword .not => some negationLevel
  | _ => none

/-- The level of the operators that a lexeme is one of, or the first word of one. -/
def joins? : Lexeme → Option Nat
  | .operator op => op.binaryPrecedence?
  | .keyword .or => Operator.or.binaryPrecedence?
  | .keyword .and => Operator.and.binaryPrecedence?
  | .keyword .is | .keyword .in | .keyword .not => Operator.in.binaryPrecedence?
  | _ => none

/-- The least level of an expression in front of a lexeme that goes on with it; a lexeme that goes on
with none may stand behind all. Calls, subscripts, members and new names go on with atoms. -/
def leftLevel : Lexeme → Nat
  | .openParenthesis | .openBracket | .dot | .operator .walrus => atomLevel + 1
  | .operator .power => atomLevel
  | .keyword .if => conditionLevel
  | x => x.joins?.getD 0

/-- A lexeme that goes on with expressions of lower levels only joins none of a level. -/
theorem joins?_ne {x : Lexeme} {n : Nat} (hn : n ≤ atomLevel) (h : x.leftLevel < n) :
    x.joins? ≠ some n := by
  intro hjoins
  unfold leftLevel at h
  split at h
  · cases hjoins
  · cases hjoins
  · cases hjoins
  · cases hjoins
  · exact Nat.not_lt.2 hn h
  · cases hjoins
  · rw [hjoins] at h
    exact Nat.lt_irrefl _ h

/-- What goes on with an expression below the atoms goes on with one below the signs. -/
theorem leftLevel_lt {x : Lexeme} (h : x.leftLevel < atomLevel) : x.leftLevel < signLevel := by
  cases x with
  | operator op => cases op <;> first | decide | exact absurd h (by decide)
  | keyword k => cases k <;> decide
  | openParenthesis | openBracket | dot => exact absurd h (by decide)
  | _ => exact Nat.zero_lt_succ _

end Lexeme

/-- A lexeme that opens expressions of a level or higher ones. -/
def Lexeme.Opens (level : Nat) (x : Lexeme) : Prop := ∃ n, x.opens? = some n ∧ level ≤ n

/-- What opens an expression is no lexeme that opens none. -/
theorem Lexeme.Opens.ne {x y : Lexeme} {level : Nat} (h : x.Opens level) (hy : y.opens? = none) :
    x ≠ y := by
  rintro rfl
  obtain ⟨n, hn, -⟩ := h
  rw [hy] at hn
  cases hn

/-- The kinds of the tokens that open expressions. -/
theorem Lexeme.Opens.kind {x : Lexeme} {level : Nat} (h : x.Opens level) :
    x.kind ∈ [TokenKind.identifier, .number, .openParenthesis, .operator, .keyword] := by
  obtain ⟨n, hn, -⟩ := h
  cases x <;> first | simp [Lexeme.kind]; done | cases hn

/-- The first of some words opens expressions of a level or higher ones. -/
def OpensAt (level : Nat) (words : List Word) : Prop :=
  ∃ w rest, words = w :: rest ∧ w.lexeme.Opens level

namespace BinaryOperator

variable (op : BinaryOperator)

/-- The words of an operator can be written, and the first goes on with the left operand. -/
theorem words_spec : (∀ w ∈ op.words, w.IsSpelled ∧ w.lexeme ≠ .operator .walrus) ∧
    ∃ w rest, op.words = w :: rest ∧ w.lexeme.leftLevel = op.leftLevel := by
  obtain ⟨operator, strength, binds⟩ := op
  cases operator <;> cases binds <;>
    refine ⟨?_, _, _, rfl, rfl⟩ <;> simp [words, Word.lexeme] <;> decide

/-- Operators bind less than atoms, and their left operands as much as they do or more. -/
theorem strength_spec : 0 < op.strength ∧ op.strength < atomLevel ∧
    op.strength ≤ op.leftLevel ∧ op.leftLevel ≤ atomLevel ∧ op.rightLevel ≤ atomLevel := by
  obtain ⟨operator, strength, binds⟩ := op
  cases operator <;> cases binds <;> decide

end BinaryOperator

/-- What opens expressions of a level opens those of lower ones. -/
theorem OpensAt.mono {least level : Nat} {words : List Word} (h : OpensAt level words)
    (hle : least ≤ level) : OpensAt least words := by
  obtain ⟨w, rest, hwords, n, hn, hlevel⟩ := h
  exact ⟨w, rest, hwords, n, hn, Nat.le_trans hle hlevel⟩

/-- What comes behind the first word does not count. -/
theorem OpensAt.append {level : Nat} {words : List Word} (h : OpensAt level words)
    (more : List Word) : OpensAt level (words ++ more) := by
  obtain ⟨w, rest, rfl, hw⟩ := h
  exact ⟨w, rest ++ more, rfl, hw⟩

namespace Expression

/-- No expression binds more than atoms. -/
theorem level_le (e : Expression) : e.level ≤ atomLevel := by
  cases e with
  | binary op left right => exact Nat.le_of_lt op.strength_spec.2.1
  | _ => simp only [level]; decide

/-- A parenthesis opens expressions of every level. -/
theorem opensAt_enclosed {e : Expression} (h : OpensAt e.level e.bare) {least : Nat}
    (hleast : least ≤ atomLevel) : OpensAt least (enclosed (e.level < least) e.bare) := by
  unfold enclosed
  split
  · exact ⟨_, _, rfl, atomLevel, rfl, hleast⟩
  · exact h.mono (by omega)

/-- The words of an expression open expressions of its level. -/
theorem opensAt_bare (e : Expression) : OpensAt e.level e.bare := by
  induction e with
  | name n => exact ⟨_, _, rfl, _, rfl, Nat.le_refl _⟩
  | integer n => exact ⟨_, _, rfl, _, rfl, Nat.le_refl _⟩
  | signed sign operand => exact ⟨_, _, rfl, _, if_pos sign.isSign, Nat.le_refl _⟩
  | negation operand => exact ⟨_, _, rfl, _, rfl, Nat.le_refl _⟩
  | binary op left right ihl =>
    obtain ⟨-, -, hle, hatom, -⟩ := op.strength_spec
    exact (((opensAt_enclosed ihl hatom).mono hle).append _).append _
  | conditional value condition otherwise ihv =>
    have hvalue : OpensAt conditionLevel (enclosed (value.level < conditionLevel) value.bare) :=
      opensAt_enclosed ihv (by decide)
    exact (hvalue.mono (Nat.zero_le _)).append _

/-- The words of an expression open expressions of the given least level. -/
theorem opensAt_words (e : Expression) {least : Nat} (hleast : least ≤ atomLevel) :
    OpensAt least (e.words least) := opensAt_enclosed e.opensAt_bare hleast

/-- Parentheses can be written. -/
theorem spelled_enclosed {needed : Prop} [Decidable needed] {words : List Word}
    (h : ∀ w ∈ words, w.IsSpelled ∧ w.lexeme ≠ .operator .walrus) :
    ∀ w ∈ enclosed needed words, w.IsSpelled ∧ w.lexeme ≠ .operator .walrus := by
  unfold enclosed
  split
  · intro w hw
    rcases List.mem_cons.1 hw with rfl | hw
    · decide
    rcases List.mem_append.1 hw with hw | hw
    · exact h w hw
    · rw [List.mem_singleton.1 hw]
      decide
  · exact h

/-- The words of an expression can be written, and none of them names an expression. -/
theorem spelled_bare (e : Expression) :
    ∀ w ∈ e.bare, w.IsSpelled ∧ w.lexeme ≠ .operator .walrus := by
  induction e with
  | name n =>
    intro w hw
    rw [List.mem_singleton.1 hw]
    refine ⟨fun h => ?_, nofun⟩
    obtain ⟨letters, hspells⟩ := n
    rw [show letters = [] from h] at hspells
    cases hspells
  | integer n =>
    intro w hw
    rw [List.mem_singleton.1 hw]
    exact ⟨Nat.toDigits_ne_nil, nofun⟩
  | signed sign operand ih =>
    intro w hw
    rcases List.mem_cons.1 hw with rfl | hw
    · obtain ⟨operator, isSign⟩ := sign
      cases operator <;> cases isSign <;> decide
    · exact spelled_enclosed ih w hw
  | negation operand ih =>
    intro w hw
    rcases List.mem_cons.1 hw with rfl | hw
    · decide
    · exact spelled_enclosed ih w hw
  | binary op left right ihl ihr =>
    intro w hw
    rw [bare, List.mem_append, List.mem_append] at hw
    rcases hw with (hw | hw) | hw
    · exact spelled_enclosed ihl w hw
    · exact op.words_spec.1 w hw
    · exact spelled_enclosed ihr w hw
  | conditional value condition otherwise ihv ihc iho =>
    intro w hw
    rw [bare, List.mem_append, List.mem_cons, List.mem_append, List.mem_cons] at hw
    rcases hw with hw | rfl | hw | rfl | hw
    · exact spelled_enclosed ihv w hw
    · decide
    · exact spelled_enclosed ihc w hw
    · decide
    · exact iho w hw

end Expression

end TypeProbe
