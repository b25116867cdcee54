import TypeProbe.Tree.Node

/-!
# Arenas

An `Arena` holds the nodes of a tree in the order of their creation; the id of a node is its place.
Children are made before their parent: `add` gives a new node its place, tells the children who
their parent is, and widens the new node's range to hold theirs. Ids of nodes that do not exist are
allowed as children and mean nothing.
-/

namespace TypeProbe

/-- The nodes of a tree, in the order of their creation. -/
structure Arena where
  /-- The nodes; the id of a node is its index. -/
  nodes : Array Node
deriving DecidableEq, Inhabited

namespace Arena

/-- The arena without nodes. -/
def empty : Arena := ⟨#[]⟩

/-- The number of nodes, which is also the id of the next one. -/
def size (a : Arena) : Nat := a.nodes.size

/-- The node with the given id. -/
def get? (a : Arena) (id : NodeId) : Option Node := a.nodes[id]?

/-- What construct a node is. -/
def form? (a : Arena) (id : NodeId) : Option Form := (a.get? id).map (·.form)

/-- The kind of a node. -/
def kind? (a : Arena) (id : NodeId) : Option NodeKind := (a.get? id).map (·.kind)

/-- The range of a node. -/
def range? (a : Arena) (id : NodeId) : Option TextRange := (a.get? id).map (·.range)

/-- The parent of a node. -/
def parent? (a : Arena) (id : NodeId) : Option NodeId := (a.get? id).bind (·.parent)

/-- The children of a node, in the order of the text. -/
def children (a : Arena) (id : NodeId) : List NodeId :=
  match a.get? id with
  | some node => node.form.children
  | none => []

/-- The offset of a node's first byte, 0 without such a node. -/
def startOf (a : Arena) (id : NodeId) : Nat := ((a.range? id).map (·.start)).getD 0

/-- The name that a name node spells. -/
def nameOf? (a : Arena) (id : NodeId) : Option String :=
  match a.form? id with
  | some (.name _ value) => some value
  | _ => none

/-- Changes a node, if it exists. -/
def modify (a : Arena) (id : NodeId) (change : Node → Node) : Arena := ⟨a.nodes.modify id change⟩

/-- The range widened to hold the ranges of the nodes that exist. -/
def rangeOver (a : Arena) (range : TextRange) (ids : List NodeId) : TextRange :=
  (ids.filterMap a.range?).foldl TextRange.hull range

/-- Adds a node at the end. Its range reaches at least from `start` to `stop`, and holds the ranges
of its children, whose parent it becomes. -/
def add (a : Arena) (start stop : Nat) (form : Form) : NodeId × Arena :=
  let id := a.size
  let range := a.rangeOver (TextRange.ofBounds start (max stop start)) form.children
  let adopted := form.children.foldl
    (fun (a : Arena) child => a.modify child fun node => { node with parent := some id }) a
  (id, ⟨adopted.nodes.push ⟨range, none, form⟩⟩)

/-- Widens the range of a node to reach at least from `start` to `stop`. -/
def extendRange (a : Arena) (id : NodeId) (start stop : Nat) : Arena :=
  a.modify id fun node =>
    { node with range :=
        TextRange.ofBounds (min node.range.start start) (max node.range.stop stop) }

/-- The ids of all nodes, in order. -/
def ids (a : Arena) : List NodeId := List.range a.size

end Arena

end TypeProbe
