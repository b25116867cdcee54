/-!
# File names

A file name is a path: parts with slashes between them. Empty parts and parts of one dot mean
nothing, a part of two dots leads back. The stem of a path (`FileName.stem?`) is its last part
without the last dot in it and what follows; a dot at the front is part of the stem.
-/

namespace TypeProbe.FileName

/-- The parts of a path that mean something. -/
def parts (path : String) : List String :=
  (path.splitOn "/").filter fun part => part ≠ "" ∧ part ≠ "."

/-- A name without its last dot and what follows it, unless nothing stands before the dot. -/
def withoutSuffix (name : List Char) : List Char :=
  match name.reverse.dropWhile (· ≠ '.') with
  | [] | [_] => name
  | _ :: front => front.reverse

/-- The stem of a path; one that leads back or nowhere has none. -/
def stem? (path : String) : Option String :=
  ((parts path).getLast?.filter (· ≠ "..")).map fun name =>
    String.ofList (withoutSuffix name.toList)

/-- The name of the module that a file holds: its stem, or the path if it has none. -/
def moduleName (path : String) : String := (stem? path).getD path

end TypeProbe.FileName
