import TypeProbe.Decimal.Stepwise
import TypeProbe.Named
import TypeProbe.Text.Json

/-!
# Reading structured texts

`Json.parse?` reads a whole text as a value of the data format. Whole numbers are exact if they fit
in 64 bits, all other numbers are rounded in steps (`ShortDecimal`), and one that is beyond all
finite values is refused, as are lists and records that are nested too deep. Of fields with the same
name the last one counts.
-/

namespace TypeProbe.Json

/-- A reader takes characters from the front of a text, or refuses it. -/
abbrev Reader (α : Type) := List Char → Option (α × List Char)

namespace Reader

/-- Whether a character may stand between values. -/
def isBlank (c : Char) : Bool := c == ' ' || c == '\n' || c == '\t' || c == '\r'

/-- The text behind the blanks at its front. -/
def skipBlanks (input : List Char) : List Char := input.dropWhile isBlank

/-- The value of a hexadecimal digit. -/
def hexValue? (c : Char) : Option Nat :=
  if '0' ≤ c ∧ c ≤ '9' then some (c.toNat - '0'.toNat)
  else if 'a' ≤ c ∧ c ≤ 'f' then some (c.toNat - 'a'.toNat + 10)
  else if 'A' ≤ c ∧ c ≤ 'F' then some (c.toNat - 'A'.toNat + 10)
  else none

/-- Takes four hexadecimal digits. -/
def fourDigits : Reader Nat
  | a :: b :: c :: d :: rest =>
    ([a, b, c, d].mapM hexValue?).map fun ds => (ds.foldl (fun n d => 16 * n + d) 0, rest)
  | _ => none

/-- Takes the rest of an escape that gives the number of a character: one beyond four digits is
given by two escapes, which are refused apart from each other. -/
def numberedChar : Reader Char := fun input =>
  match fourDigits input with
  | none => none
  | some (high, rest) =>
    if high < 0xd800 ∨ 0xdfff < high then some (Char.ofNat high, rest)
    else
      match rest with
      | '\\' :: 'u' :: rest =>
        match fourDigits rest with
        | some (low, rest) =>
          if high < 0xdc00 ∧ 0xdc00 ≤ low ∧ low ≤ 0xdfff then
            some (Char.ofNat (0x10000 + (high - 0xd800) * 0x400 + (low - 0xdc00)), rest)
          else none
        | none => none
      | _ => none

/-- Takes the rest of an escape. -/
def escaped : Reader Char
  | '"' :: rest => some ('"', rest)
  | '\\' :: rest => some ('\\', rest)
  | '/' :: rest => some ('/', rest)
  | 'b' :: rest => some ('\x08', rest)
  | 'f' :: rest => some ('\x0c', rest)
  | 'n' :: rest => some ('\n', rest)
  | 'r' :: rest => some ('\r', rest)
  | 't' :: rest => some ('\t', rest)
  | 'u' :: rest => numberedChar rest
  | _ => none

/-- Takes the rest of a text up to its closing quote, at most `fuel` characters; `read` holds the
characters before, the last first. -/
def quotedAt : (fuel : Nat) → (read : List Char) → Reader String
  | 0, _, _ => none
  | _, _, [] => none
  | _, read, '"' :: rest => some (String.ofList read.reverse, rest)
  | fuel + 1, read, '\\' :: rest =>
    match escaped rest with
    | some (c, rest) => quotedAt fuel (c :: read) rest
    | none => none
  | fuel + 1, read, c :: rest => if c.toNat < 0x20 then none else quotedAt fuel (c :: read) rest

/-- Takes the rest of a text up to its closing quote. -/
def quoted : Reader String := fun input => quotedAt (input.length + 1) [] input

/-- The digits at the front of a text, of which there must be at least one, and the rest. -/
def digits : Reader (List Char) := fun input =>
  match input.span Char.isDigit with
  | ([], _) => none
  | found => some found

/-- The digits behind the point of a number, which are none if it has no point. -/
def fraction : Reader (List Char)
  | '.' :: rest => digits rest
  | input => some ([], input)

/-- The power of ten behind its mark, with or without a sign, or none if there is no mark. -/
def powerOfTen : Reader (Option Int) := fun input =>
  match input with
  | [] => some (none, [])
  | mark :: rest =>
    if mark = 'e' ∨ mark = 'E' then
      let (negative, rest) := match rest with
        | '+' :: rest => (false, rest)
        | '-' :: rest => (true, rest)
        | _ => (false, rest)
      (digits rest).map fun (ds, rest) =>
        let n : Int := Binary64.digitsValue ds
        (some (if negative then -n else n), rest)
    else some (none, input)

/-- A number that is read in rounded steps, unless it is beyond all finite values. -/
def rounded? (negative : Bool) (decimal : ShortDecimal) : Option Json :=
  match decimal.toBinary64 negative with
  | .finite s significand exponent => some (.float (.finite s significand exponent))
  | _ => none

/-- The greatest number that is exact with a minus sign, `2 ^ 63`. -/
def negativeLimit : Nat := 0x8000000000000000

/-- A number without a point or a power of ten: exact if it fits in 64 bits, with or without
a sign. A zero with a sign is rounded, as only then it keeps its sign. -/
def whole? (negative : Bool) (ds : List Char) : Option Json :=
  let n := Binary64.digitsValue ds
  if negative then
    if 0 < n ∧ n ≤ negativeLimit then some (.int (-n)) else rounded? true (.ofDigits ds [] 0)
  else if n < shortLimit then some (.int n) else rounded? false (.ofDigits ds [] 0)

/-- Takes a number. Its whole part has no zero at the front but a single one. -/
def number : Reader Json := fun input =>
  let (negative, body) := match input with
    | '-' :: rest => (true, rest)
    | _ => (false, input)
  match digits body with
  | none => none
  | some (ds, rest) =>
    if ds.length > 1 ∧ ds.head? = some '0' then none
    else
      match fraction rest with
      | none => none
      | some (part, rest) =>
        match powerOfTen rest with
        | none => none
        | some (power, rest) =>
          let value :=
            if part.isEmpty && power.isNone then whole? negative ds
            else rounded? negative (.ofDigits ds part (power.getD 0))
          value.map fun value => (value, rest)

/-- Takes a value that is neither a list nor a record. -/
def leaf : Reader Json
  | 'n' :: 'u' :: 'l' :: 'l' :: rest => some (.null, rest)
  | 't' :: 'r' :: 'u' :: 'e' :: rest => some (.bool true, rest)
  | 'f' :: 'a' :: 'l' :: 's' :: 'e' :: rest => some (.bool false, rest)
  | '"' :: rest => (quoted rest).map fun (s, rest) => (.text s, rest)
  | input => number input

/-- Takes entries with commas between them up to a closing bracket, at most `fuel` of them. -/
def entriesAt {α : Type} (close : Char) (entry : Reader α) : (fuel : Nat) → Reader (List α)
  | 0, _ => none
  | fuel + 1, input =>
    match entry input with
    | none => none
    | some (a, rest) =>
      match skipBlanks rest with
      | ',' :: rest => (entriesAt close entry fuel rest).map fun (as, rest) => (a :: as, rest)
      | c :: rest => if c = close then some ([a], rest) else none
      | [] => none

/-- Takes the rest of a bracketed sequence of entries. -/
def entries {α : Type} (close : Char) (entry : Reader α) : Reader (List α) := fun input =>
  match skipBlanks input with
  | [] => none
  | c :: rest =>
    if c = close then some ([], rest) else entriesAt close entry (input.length + 1) (c :: rest)

/-- Takes a field: its name, a colon and its value. -/
def field (value : Reader Json) : Reader (String × Json) := fun input =>
  match skipBlanks input with
  | '"' :: rest =>
    match quoted rest with
    | none => none
    | some (name, rest) =>
      match skipBlanks rest with
      | ':' :: rest => (value rest).map fun (v, rest) => ((name, v), rest)
      | _ => none
  | _ => none

/-- A record of the given fields. -/
def recordOf (fields : List (String × Json)) : Json :=
  .record (fields.foldl (fun named (name, value) => Named.insert named name value) [])

/-- Takes a value in which lists and records are nested less than `depth` deep. -/
def value : (depth : Nat) → Reader Json
  | 0, _ => none
  | depth + 1, input =>
    match skipBlanks input with
    | '[' :: rest =>
      if depth = 0 then none
      else (entries ']' (value depth) rest).map fun (items, rest) => (.list items, rest)
    | '\x7b' :: rest =>
      if depth = 0 then none
      else (entries '\x7d' (field (value depth)) rest).map fun (fs, rest) => (recordOf fs, rest)
    | input => leaf input

end Reader

/-- How deep lists and records may be nested, and one more. -/
def depthLimit : Nat := 128

/-- Reads a whole text as a value. -/
def parse? (text : String) : Option Json :=
  match Reader.value depthLimit text.toList with
  | some (value, rest) => if (Reader.skipBlanks rest).isEmpty then some value else none
  | none => none

end TypeProbe.Json
