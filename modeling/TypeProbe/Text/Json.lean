import TypeProbe.Decimal.Shortest

/-!
# Structured texts

`Json` is a value of the data format in which tokens and type graphs are shown, with the fields of a
record in the order in which they are written. `compact` writes it on one line, `pretty` with one
entry a line and two spaces for every level.
-/

namespace TypeProbe

/-- A value of the data format. -/
inductive Json where
  /-- Nothing. -/
  | null
  /-- A truth value. -/
  | bool (b : Bool)
  /-- A whole number. -/
  | int (n : Int)
  /-- A number with a fraction or an exponent. -/
  | float (x : Binary64)
  /-- A quoted text. -/
  | text (s : String)
  /-- A list of values. -/
  | list (items : List Json)
  /-- Named values in order. -/
  | record (fields : List (String × Json))

namespace Json

/-- One hexadecimal digit, with small letters. -/
def hexDigit (n : Nat) : Char := (Nat.toDigits 16 (n % 16)).headD '0'

/-- How a character is written between quotes: quotes, backslashes and control characters are
escaped, everything else stands for itself. -/
def escapeChar (c : Char) : List Char :=
  if c = '"' then ['\\', '"']
  else if c = '\\' then ['\\', '\\']
  else if c = '\n' then ['\\', 'n']
  else if c = '\r' then ['\\', 'r']
  else if c = '\t' then ['\\', 't']
  else if c = '\x08' then ['\\', 'b']
  else if c = '\x0c' then ['\\', 'f']
  else if c.toNat < 0x20 then ['\\', 'u', '0', '0', hexDigit (c.toNat / 16), hexDigit c.toNat]
  else [c]

/-- A text between quotes. -/
def quote (s : String) : String :=
  String.ofList ('"' :: (s.toList.flatMap escapeChar ++ ['"']))

/-- The text of a value that is neither a list nor a record. -/
def leafText : Json → String
  | .null => "null"
  | .bool b => if b then "true" else "false"
  | .int n => toString n
  | .float x => Decimal.compactFormat.text x
  | .text s => quote s
  | .list _ => "[]"
  | .record _ => "\x7b\x7d"

mutual

/-- The value on one line without blanks. -/
def compact : Json → String
  | .list (item :: items) => "[" ++ compact item ++ compactItems items ++ "]"
  | .record ((name, value) :: fields) =>
    "\x7b" ++ quote name ++ ":" ++ compact value ++ compactFields fields ++ "\x7d"
  | leaf => leafText leaf

/-- The items after the first, each after a comma. -/
def compactItems : List Json → String
  | [] => ""
  | item :: items => "," ++ compact item ++ compactItems items

/-- The fields after the first, each after a comma. -/
def compactFields : List (String × Json) → String
  | [] => ""
  | (name, value) :: fields => "," ++ quote name ++ ":" ++ compact value ++ compactFields fields

end

/-- A new line with the blanks of a nesting level. -/
def lineBreak (level : Nat) : String := "\n" ++ String.ofList (List.replicate (2 * level) ' ')

mutual

/-- The value with one entry a line, its own lines at the given nesting level. -/
def prettyAt (level : Nat) : Json → String
  | .list (item :: items) =>
    "[" ++ lineBreak (level + 1) ++ prettyAt (level + 1) item ++ prettyItems (level + 1) items ++
      lineBreak level ++ "]"
  | .record ((name, value) :: fields) =>
    "\x7b" ++ lineBreak (level + 1) ++ quote name ++ ": " ++ prettyAt (level + 1) value ++
      prettyFields (level + 1) fields ++ lineBreak level ++ "\x7d"
  | leaf => leafText leaf

/-- The items after the first, each on a line of its own after a comma. -/
def prettyItems (level : Nat) : List Json → String
  | [] => ""
  | item :: items => "," ++ lineBreak level ++ prettyAt level item ++ prettyItems level items

/-- The fields after the first, each on a line of its own after a comma. -/
def prettyFields (level : Nat) : List (String × Json) → String
  | [] => ""
  | (name, value) :: fields =>
    "," ++ lineBreak level ++ quote name ++ ": " ++ prettyAt level value ++
      prettyFields level fields

end

/-- The value with one entry a line and two spaces for every level. -/
def pretty (value : Json) : String := prettyAt 0 value

end Json

end TypeProbe
