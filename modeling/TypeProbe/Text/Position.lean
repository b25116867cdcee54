/-!
# Places in a text

A text is addressed in two ways: by byte offset (`TextRange`) and by line and column (`Position`,
`Span`). `LineMap` holds the offset at which every line starts and turns the first into the second.
Lines end at a line feed, at a carriage return, or at the two together, which count once.
-/

namespace TypeProbe

/-- Offsets are numbers of 32 bits: all are below this, `2 ^ 32`. -/
def offsetLimit : Nat := 0x100000000

/-- The half-open range of bytes from `start` up to, not including, `start + length`. -/
structure TextRange where
  /-- Offset of the first byte. -/
  start : Nat
  /-- Number of bytes. -/
  length : Nat
deriving DecidableEq, Inhabited, Repr

namespace TextRange

/-- The offset just after the last byte. -/
def stop (r : TextRange) : Nat := r.start + r.length

/-- The range between two offsets, empty when the second lies before the first. -/
def ofBounds (start stop : Nat) : TextRange := ⟨start, stop - start⟩

/-- Whether an offset lies inside the range, its stop excluded. -/
def contains (r : TextRange) (offset : Nat) : Bool := r.start ≤ offset && offset < r.stop

/-- Whether an offset lies inside the range or exactly at its stop. -/
def touches (r : TextRange) (offset : Nat) : Bool := r.start ≤ offset && offset ≤ r.stop

/-- Whether the whole of `s` lies inside `r`. -/
def covers (r s : TextRange) : Bool := r.start ≤ s.start && s.stop ≤ r.stop

/-- The smallest range that holds both. -/
def hull (r s : TextRange) : TextRange := ofBounds (min r.start s.start) (max r.stop s.stop)

@[simp] theorem stop_ofBounds (a b : Nat) : (ofBounds a b).stop = max a b := by
  simp only [ofBounds, stop]
  omega

@[simp] theorem start_ofBounds (a b : Nat) : (ofBounds a b).start = a := rfl

end TextRange

/-- A line and a column in it, both counted from 0; columns count bytes. -/
structure Position where
  /-- Number of line ends before the position. -/
  line : Nat
  /-- Number of bytes between the start of the line and the position. -/
  column : Nat
deriving DecidableEq, Inhabited, Repr

namespace Position

/-- Positions are ordered by line, and within a line by column. -/
protected def compare (p q : Position) : Ordering :=
  (compare p.line q.line).then (compare p.column q.column)

/-- A position is shown as its line and column in parentheses. -/
def text (p : Position) : String := s!"({p.line},{p.column})"

end Position

/-- The stretch between two positions. -/
structure Span where
  /-- Where it starts. -/
  start : Position
  /-- Where it stops. -/
  stop : Position
deriving DecidableEq, Inhabited, Repr

/-- A span is shown as its two positions with a dash between them. -/
def Span.text (s : Span) : String := s.start.text ++ "-" ++ s.stop.text

/-- The offsets at which the lines of a text start, in ascending order. -/
structure LineMap where
  /-- The first line starts at offset 0. -/
  lineStarts : List Nat
deriving DecidableEq, Inhabited, Repr

namespace LineMap

/-- The starts of the lines that begin after some line end of `text`, which stands at `offset`. -/
def startsAfter (offset : Nat) : List Char → List Nat
  | [] => []
  | '\r' :: '\n' :: rest => (offset + 2) :: startsAfter (offset + 2) rest
  | c :: rest =>
    let next := offset + c.utf8Size
    if c = '\n' ∨ c = '\r' then next :: startsAfter next rest else startsAfter next rest

/-- The line map of a text. -/
def ofText (text : List Char) : LineMap := ⟨0 :: startsAfter 0 text⟩

/-- The line map with the given starts; a missing first line is put in front. -/
def ofStarts (starts : List Nat) : LineMap :=
  if starts.head? = some 0 then ⟨starts⟩ else ⟨0 :: starts⟩

/-- The number of lines. -/
def lineCount (m : LineMap) : Nat := m.lineStarts.length

/-- The line and the start of the last line that starts at or before the offset. -/
def locate (offset : Nat) : (line start : Nat) → List Nat → Nat × Nat
  | line, start, [] => (line, start)
  | line, start, next :: rest =>
    if next ≤ offset then locate offset (line + 1) next rest else (line, start)

/-- The position of an offset, on the last line that starts at or before it. -/
def position (m : LineMap) (offset : Nat) : Position :=
  let (line, start) := locate offset 0 (m.lineStarts.headD 0) m.lineStarts.tail
  ⟨line, offset - start⟩

/-- The span of a range. -/
def span (m : LineMap) (r : TextRange) : Span := ⟨m.position r.start, m.position r.stop⟩

/-- A range is shown by its span. -/
def spanText (m : LineMap) (r : TextRange) : String := (m.span r).text

end LineMap

end TypeProbe
