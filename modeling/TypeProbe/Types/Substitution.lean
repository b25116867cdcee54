import TypeProbe.Types.Store

/-!
# Substitution

`TypeStore.substitute` replaces types, in practice type variables, at once wherever they stand among
the type arguments of classes and the members of unions. A type in which nothing is replaced stays
the same type.
-/

namespace TypeProbe

/-- What types are replaced with. -/
abbrev Solutions := List (TypeId × TypeId)

namespace TypeStore

/-- Replaces types, at most `fuel` levels deep. -/
def substituteAt (solutions : Solutions) : (fuel : Nat) → TypeId → StateM TypeStore TypeId
  | 0, id => return id
  | fuel + 1, id => do
    match solutions.lookup id with
    | some solution => return solution
    | none =>
      match (← get).get? id with
      | some ⟨flags, .nominal detail (some arguments) _⟩ =>
        let replaced ← arguments.mapM (substituteAt solutions fuel)
        if replaced = arguments then return id
        else if flags.has .instantiable then fun s => s.specializedClass detail replaced
        else fun s => s.specializedInstance detail replaced
      | some ⟨_, .union members⟩ =>
        let replaced ← members.mapM (substituteAt solutions fuel)
        if replaced = members then return id else fun s => s.unionOf replaced
      | _ => return id

/-- Replaces types. The parts of a type were there before it, so the handle bounds the number of
levels. -/
def substitute (solutions : Solutions) (id : TypeId) : StateM TypeStore TypeId :=
  substituteAt solutions (id.index + 1) id

end TypeStore

end TypeProbe
