import TypeProbe.Types.Store

/-!
# Linearization of class hierarchies

The members of a class are looked for in the class and then in its ancestors, one after the other.
The order of the ancestors is found by merging the orders of the bases and the list of the bases
(`Linearization.merge`): the next class is the first one in front of a sequence that stands further
back in none. If every class in front of a sequence stands further back in another, no order agrees
with all sequences, and what is left is taken sequence by sequence.

Classes are compared by a key, under which a class is the same with all type arguments.
-/

namespace TypeProbe

namespace Linearization

variable {α κ : Type} [BEq κ] (key : α → κ)

/-- Whether a sequence has the key behind its first element. -/
def hasBehind (k : κ) (sequence : List α) : Bool := sequence.tail.any fun a => key a == k

/-- The first element in front of a sequence that stands further back in none. -/
def next? (sequences : List (List α)) : Option α :=
  (sequences.filterMap List.head?).find? fun a => !sequences.any (hasBehind key (key a))

/-- A sequence without its first element, if that has the key. -/
def dropFront (k : κ) : List α → List α
  | [] => []
  | a :: rest => if key a == k then rest else a :: rest

/-- A list with a further element at its end, unless it has one with the same key. -/
def insertNew (list : List α) (a : α) : List α :=
  if list.any fun b => key b == key a then list else list ++ [a]

/-- Merges the sequences behind what has been merged, in at most `fuel` steps. -/
def mergeAt : (fuel : Nat) → (merged : List α) → (sequences : List (List α)) → List α
  | 0, merged, _ => merged
  | fuel + 1, merged, sequences =>
    match sequences.filter (!·.isEmpty) with
    | [] => merged
    | rest =>
      match next? key rest with
      | some a => mergeAt fuel (merged ++ [a]) (rest.map (dropFront key (key a)))
      | none => rest.flatten.foldl (insertNew key) merged

/-- Merges the sequences behind a first element. Each step takes away at least one element, so there
are no more steps than elements. -/
def merge (first : α) (sequences : List (List α)) : List α :=
  mergeAt key (sequences.flatten.length + 1) [first] sequences

end Linearization

namespace TypeStore

/-- What two types of the same class have in common; a type that is no class has only itself. -/
def classKey (s : TypeStore) (id : TypeId) : ClassId ⊕ TypeId :=
  match s.classIdOf? id with
  | some detail => .inl detail
  | none => .inr id

/-- The order of a base and its ancestors, with the base as it is named among the bases. -/
def ancestry (s : TypeStore) (base : TypeId) : List TypeId :=
  match s.classOf? base with
  | some c => base :: c.mro.tail
  | none => [base]

/-- A base is of the class that comes first in the order of its own class. -/
def HeadsItsOrder (s : TypeStore) (base : TypeId) : Prop :=
  ∃ c, s.classOf? base = some c ∧ c.mro.head?.map s.classKey = some (s.classKey base)

/-- The order of a class and its ancestors. -/
def linearize (s : TypeStore) (classType : TypeId) (bases : List TypeId) : List TypeId :=
  Linearization.merge s.classKey classType (bases.map s.ancestry ++ [bases])

end TypeStore

end TypeProbe
