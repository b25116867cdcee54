import TypeProbe.Types.Store

/-!
# Widening

`TypeStore.widen` forgets literal values: the type of one value becomes the type of all values of
its class, also among the members of a union.
-/

namespace TypeProbe.TypeStore

/-- Forgets literal values, at most `fuel` levels deep. -/
def widenAt : (fuel : Nat) → TypeId → StateM TypeStore TypeId
  | 0, id => return id
  | fuel + 1, id => do
    match (← get).shape? id with
    | some (.nominal detail _ (some _)) => fun s => s.instanceOf detail
    | some (.union members) =>
      let widened ← members.mapM (widenAt fuel)
      if widened = members then return id else fun s => s.unionOf widened
    | _ => return id

/-- Forgets literal values. The members of a union were there before it, so the handle bounds the
number of levels. -/
def widen (id : TypeId) : StateM TypeStore TypeId := widenAt (id.index + 1) id

end TypeProbe.TypeStore
