import TypeProbe.Tree.Arena

/-!
# Finding nodes

From an offset down to the deepest node there (`Arena.findAt?`), and from a node up to the nearest
expression around it that holds a range (`Arena.enclosingExpression?`). `Arena.target?` decides what
a question about the type at a range is about: the name of a class or function stands for the
definition, anything else for the expression around it.
-/

namespace TypeProbe

/-- What a question about a type is about. -/
inductive TypeTarget where
  /-- A class definition. -/
  | classDef (node : NodeId)
  /-- A function definition. -/
  | function (node : NodeId)
  /-- An expression. -/
  | expression (node : NodeId)
deriving DecidableEq, Inhabited, Repr

namespace Arena

/-- Whether the node exists and its range, stop included, has the offset. -/
def touches (a : Arena) (offset : Nat) (id : NodeId) : Bool :=
  ((a.range? id).map fun range => range.touches offset).getD false

/-- Goes from a node to its first child that touches the offset, as long as there is one, at most
`fuel` times. -/
def descend (a : Arena) (offset : Nat) : (fuel : Nat) → NodeId → NodeId
  | 0, id => id
  | fuel + 1, id =>
    match (a.children id).find? (a.touches offset) with
    | some child => a.descend offset fuel child
    | none => id

/-- The deepest node below `root` that touches the offset; of two neighbours that touch it the first
is taken. -/
def findAt? (a : Arena) (root : NodeId) (offset : Nat) : Option NodeId :=
  if a.touches offset root then some (a.descend offset a.size root) else none

/-- The node itself and the nodes around it, from the inside out, at most `fuel` of them. -/
def ancestors (a : Arena) : (fuel : Nat) → NodeId → List NodeId
  | 0, _ => []
  | fuel + 1, id =>
    match a.get? id with
    | none => []
    | some node =>
      id :: (match node.parent with
        | some parent => a.ancestors fuel parent
        | none => [])

/-- The node itself and all nodes around it, from the inside out. -/
def lineage (a : Arena) (id : NodeId) : List NodeId := a.ancestors a.size id

/-- Whether a node's range holds the whole of another range. -/
def covers (a : Arena) (range : TextRange) (id : NodeId) : Bool :=
  ((a.range? id).map fun r => r.covers range).getD false

/-- Whether a node is an expression. -/
def isExpression (a : Arena) (id : NodeId) : Bool :=
  ((a.kind? id).map NodeKind.isExpression).getD false

/-- The nearest expression at or around the first node, from `anchor` outwards, that holds the
range. -/
def enclosingExpression? (a : Arena) (anchor : NodeId) (range : TextRange) : Option NodeId :=
  ((a.lineage anchor).dropWhile fun id => !a.covers range id).find? a.isExpression

/-- The node at which a question about a range starts: the one at its start, or else the one at its
stop. -/
def anchor? (a : Arena) (root : NodeId) (range : TextRange) : Option NodeId :=
  (a.findAt? root range.start).or (a.findAt? root range.stop)

/-- What a question about a range that starts at the node `anchor` is about. -/
def target? (a : Arena) (anchor : NodeId) (range : TextRange) : Option TypeTarget :=
  let expression := (a.enclosingExpression? anchor range).map TypeTarget.expression
  match a.kind? anchor, a.parent? anchor with
  | some .name, some parent =>
    match a.kind? parent with
    | some .class => some (.classDef parent)
    | some .function => some (.function parent)
    | _ => expression
  | _, _ => expression

end Arena

end TypeProbe
