/-!
# Labels of closed enumerations and of flag sets

A closed enumeration (`Labelled`) lists its members in order: the code of a member is its place in
that list, and its label is what reports show for it. A flag set (`Flags`) is a word with one bit
per member (`FlagLabelled`); reports show the labels of the bits that are set. Codes and bits that
belong to no member are kept, and a code without a member is shown by its number.
-/

namespace TypeProbe

/-- An enumeration whose members have a fixed order and a label each. -/
class Labelled (α : Type) where
  /-- All members, in the order of their codes. -/
  members : List α
  /-- What reports show for a member. -/
  label : α → String

export Labelled (label)

/-- What reports show for a code that no member has. -/
def unknownCodeText (code : Nat) : String := s!"Unknown Value!! ({code})"

/-- The label of the member with the given code. -/
def labelOfCode (α : Type) [Labelled α] (code : Nat) : String :=
  match (Labelled.members : List α)[code]? with
  | some a => label a
  | none => unknownCodeText code

/-- An enumeration whose members each own one bit of a word. -/
class FlagLabelled (α : Type) extends Labelled α where
  /-- The place of the member's bit, counted from the lowest. -/
  place : α → Nat

/-- A set of flags of type `α`, as a word; bits that belong to no flag are kept. -/
structure Flags (α : Type) where
  /-- The word. -/
  bits : Nat
deriving DecidableEq, Inhabited, Repr

namespace Flags

variable {α : Type} [FlagLabelled α]

/-- The set without flags. -/
def empty : Flags α := ⟨0⟩

/-- Whether the flag is set. -/
def has (s : Flags α) (f : α) : Bool := s.bits.testBit (FlagLabelled.place f)

/-- The set with only the given flag. -/
def only (f : α) : Flags α := ⟨Nat.pow 2 (FlagLabelled.place f)⟩

/-- The flags that are in either set. -/
def union (s t : Flags α) : Flags α := ⟨s.bits ||| t.bits⟩

/-- The set with one more flag. -/
def insert (s : Flags α) (f : α) : Flags α := s.union (only f)

/-- The set without the given flag. -/
def erase (s : Flags α) (f : α) : Flags α :=
  if s.has f then ⟨s.bits - Nat.pow 2 (FlagLabelled.place f)⟩ else s

/-- The set with exactly the given flags. -/
def ofList (fs : List α) : Flags α := fs.foldl insert empty

/-- The labels of the flags that are set, in the order of the members, joined by commas. -/
def text (s : Flags α) : String :=
  match (Labelled.members : List α).filter s.has with
  | [] => "None"
  | set => ",".intercalate (set.map label)

end Flags

end TypeProbe
