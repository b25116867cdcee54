import TypeProbe.Label
import TypeProbe.Text.Letter

/-!
# The shape of log lines

The word that chooses the shape of log lines may be written in any case and between blanks.
-/

namespace TypeProbe

/-- The shapes of log lines. -/
inductive LogFormat where
  | text | tree | json
deriving DecidableEq, Inhabited, Repr

instance : Labelled LogFormat where
  members := [.text, .tree, .json]
  label
    | .text => "Text" | .tree => "Tree" | .json => "Json"

/-- The shape a word chooses; other words choose plain text. -/
def LogFormat.ofWord (word : String) : LogFormat :=
  let word := String.ofList ((Letter.trim word.toList).map Char.toLower)
  if word = "tree" then .tree else if word = "json" then .json else .text

end TypeProbe
