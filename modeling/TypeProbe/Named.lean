/-!
# Named values in order

`Named α` holds values by name, in the order in which the names first came up. A name that comes up
again keeps its place.
-/

namespace TypeProbe

/-- Values by name, in the order in which the names first came up. -/
abbrev Named (α : Type) := List (String × α)

namespace Named

variable {α : Type}

/-- The value of a name. -/
def get? (t : Named α) (name : String) : Option α := t.lookup name

/-- Changes the value of a name, which is `fallback` before it has one. -/
def alter (t : Named α) (name : String) (fallback : α) (change : α → α) : Named α :=
  match t with
  | [] => [(name, change fallback)]
  | (key, value) :: rest =>
    if key = name then (key, change value) :: rest
    else (key, value) :: alter rest name fallback change

/-- Gives a name a value; a value it had before is lost. -/
def insert (t : Named α) (name : String) (value : α) : Named α := t.alter name value fun _ => value

/-- The values in order. -/
def values (t : Named α) : List α := t.map (·.2)

end Named

end TypeProbe
