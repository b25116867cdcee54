/-!
# Guards against endless recursion

A `Guard` knows what is being worked out right now. It lets work on a key begin (`enter`) unless
work on the same key has not ended yet, or as many keys are active as there may be; what has begun
must end (`leave`).
-/

namespace TypeProbe

/-- The answer to the wish to begin work on a key. -/
inductive Entry where
  /-- It has begun. -/
  | entered
  /-- It was going on already. -/
  | cycle
  /-- Too much is going on. -/
  | depthExceeded
deriving DecidableEq, Inhabited, Repr

/-- What is being worked out right now. -/
structure Guard (κ : Type) where
  /-- The active keys, the last first. -/
  active : List κ
  /-- How many keys are active. -/
  depth : Nat
  /-- How many keys may be active. -/
  limit : Nat
deriving DecidableEq, Inhabited, Repr

namespace Guard

variable {κ : Type} [DecidableEq κ]

/-- How many types may be worked out at a time. -/
def evaluationLimit : Nat := 64

/-- The guard without active keys. -/
def ofLimit (limit : Nat) : Guard κ := ⟨[], 0, limit⟩

/-- Whether work on a key is going on. -/
def isActive (g : Guard κ) (key : κ) : Bool := g.active.contains key

/-- Begins work on a key if it may begin; if it may not, nothing changes. -/
def enter (g : Guard κ) (key : κ) : Entry × Guard κ :=
  if g.limit ≤ g.depth then (.depthExceeded, g)
  else if g.isActive key then (.cycle, g)
  else (.entered, { g with active := key :: g.active, depth := g.depth + 1 })

/-- Ends work on an active key. -/
def leave (g : Guard κ) (key : κ) : Guard κ :=
  { g with active := g.active.erase key, depth := g.depth - 1 }

end Guard

end TypeProbe
