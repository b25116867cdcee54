import TypeProbe.Token.Basic

/-!
# Numbers and strings in a text

What a number or a string at the front of a text is, and how many characters it takes. Numbers are
whole in one of four radices, or have a point or a power of ten; underscores may stand among their
digits. Strings run to their closing quotes (`Quoting.body`): each step reads one `Part`, a plain
character or an escape, and a string that meets a line end or the end of the text first is
unterminated.
-/

namespace TypeProbe

/-- Whether the character is the given small letter or its capital. -/
def isLetter (small c : Char) : Bool := c == small || c == small.toUpper

/-- The value of a hexadecimal digit. -/
def digitValue? (c : Char) : Option Nat :=
  if '0' ≤ c ∧ c ≤ '9' then some (c.toNat - '0'.toNat)
  else if 'a' ≤ c ∧ c ≤ 'f' then some (c.toNat - 'a'.toNat + 10)
  else if 'A' ≤ c ∧ c ≤ 'F' then some (c.toNat - 'A'.toNat + 10)
  else none

/-- The value of a digit below the radix, which is at most 16. -/
def digitInRadix? (radix : Nat) (c : Char) : Option Nat :=
  (digitValue? c).filter (· < radix)

/-- The number with the given digits, most significant first. -/
def valueInRadix (radix : Nat) (digits : List Nat) : Nat :=
  digits.foldl (fun n d => radix * n + d) 0

namespace NumberLiteral

/-- Whole numbers below this, `2 ^ 63`, are kept as they are. -/
def exactLimit : Nat := 0x8000000000000000

/-- Whole numbers below this, `2 ^ 128`, are rounded. -/
def roundedLimit : Nat := 0x100000000000000000000000000000000

/-- The value of a whole number: exact below `2 ^ 63`, rounded below `2 ^ 128`, and zero above that
or without digits. -/
def integerValue (radix : Nat) (digits : List Nat) : NumberValue :=
  let n := valueInRadix radix digits
  if digits.isEmpty then .float (Binary64.zero false)
  else if n < exactLimit then .int n
  else if n < roundedLimit then .float (Binary64.ofNat n)
  else .float (Binary64.zero false)

/-- The radix that the second character of a number with a leading zero announces. -/
def announcedRadix? (c : Char) : Option Nat :=
  if isLetter 'x' c then some 16
  else if isLetter 'o' c then some 8
  else if isLetter 'b' c then some 2
  else none

/-- Whether the character may stand among the digits of the radix. -/
def isDigitOrUnderscore (radix : Nat) (c : Char) : Bool :=
  c == '_' || (digitInRadix? radix c).isSome

/-- The power of ten at the front of a text: its mark, a sign or none, and what follows its first
digit. It takes no characters if no digit follows. -/
def exponentSpelling (text : List Char) : List Char :=
  match text with
  | mark :: rest =>
    if isLetter 'e' mark then
      let (sign, digits) := match rest with
        | '+' :: rest => (['+'], rest)
        | '-' :: rest => (['-'], rest)
        | _ => ([], rest)
      match digits with
      | d :: _ =>
        if d.isDigit then mark :: (sign ++ digits.takeWhile (isDigitOrUnderscore 10)) else []
      | [] => []
    else []
  | [] => []

/-- Whether the mark of the imaginary unit stands at the front. -/
def startsImaginary : List Char → Bool
  | c :: _ => isLetter 'j' c
  | [] => false

/-- A number at the front of a text and how many characters it takes. -/
def withSuffix (value : NumberValue) (isInteger : Bool) (size : Nat) (text : List Char) :
    NumberLiteral × Nat :=
  let isImaginary := startsImaginary (text.drop size)
  (⟨value, isInteger, isImaginary⟩, if isImaginary then size + 1 else size)

/-- A number in the announced radix. -/
def readInRadix (radix : Nat) (text : List Char) : NumberLiteral × Nat :=
  let spelling := (text.drop 2).takeWhile (isDigitOrUnderscore radix)
  withSuffix (integerValue radix (spelling.filterMap (digitInRadix? radix))) true
    (2 + spelling.length) text

/-- A decimal number. -/
def readDecimal (text : List Char) : NumberLiteral × Nat :=
  let whole := text.takeWhile (isDigitOrUnderscore 10)
  let afterWhole := text.drop whole.length
  let part := match afterWhole with
    | '.' :: rest => '.' :: rest.takeWhile (isDigitOrUnderscore 10)
    | _ => []
  let power := exponentSpelling (afterWhole.drop part.length)
  let size := whole.length + part.length + power.length
  if part.isEmpty && power.isEmpty then
    withSuffix (integerValue 10 (whole.filterMap (digitInRadix? 10))) true size text
  else
    let spelling := (whole ++ part ++ power).filter (· != '_')
    withSuffix (.float ((Binary64.parse? spelling).getD .nan)) false size text

/-- The number at the front of a text that starts with a digit, or with a point and a digit. -/
def read (text : List Char) : NumberLiteral × Nat :=
  match text with
  | '0' :: c :: _ =>
    match announcedRadix? c with
    | some radix => readInRadix radix text
    | none => readDecimal text
  | _ => readDecimal text

end NumberLiteral

namespace StringLiteral

/-- The flag of a letter before a string. -/
def letterFlag? (c : Char) : Option StringFlag :=
  if isLetter 'r' c then some .raw
  else if isLetter 'u' c then some .unicode
  else if isLetter 'b' c then some .bytes
  else if isLetter 'f' c then some .format
  else none

/-- The flags of the letters before a string: one of the four, or the letter for raw strings
together with the one for bytes or the one for formats, in any order and case. -/
def letterFlags? (word : List Char) : Option (List StringFlag) :=
  match word.map letterFlag? with
  | [some f] => some [f]
  | [some f, some g] =>
    if f = g ∨ f = .unicode ∨ g = .unicode then none
    else if f = .raw ∨ g = .raw then some [f, g]
    else none
  | _ => none

end StringLiteral

/-- How a string is delimited and read. -/
structure Quoting where
  /-- The quote that ends it. -/
  quote : Char
  /-- Whether three quotes in a row end it and line ends may stand in it. -/
  triple : Bool
  /-- Whether backslashes stand for themselves. -/
  raw : Bool
  /-- Whether it stands for bytes, which leaves only the short escapes of code points. -/
  bytes : Bool
deriving DecidableEq, Inhabited, Repr

/-- What one step of reading a string yields. -/
structure Part where
  /-- What it adds to the value. -/
  value : List Char
  /-- Whether it is a malformed escape. -/
  malformed : Bool
  /-- How many characters it takes after the first. -/
  more : Nat
deriving DecidableEq, Inhabited, Repr

/-- What comes next in a string: its end, taking so many characters after the first, an end of the
line it may not hold, or a part. -/
inductive StringStep where
  | close (more : Nat)
  | broken
  | part (part : Part)
deriving DecidableEq, Inhabited, Repr

/-- The part of a string read so far. -/
structure StringBody where
  /-- The value so far. -/
  value : String
  /-- Whether an escape was malformed. -/
  malformed : Bool
  /-- Whether the string ended without its quotes. -/
  unterminated : Bool
  /-- The number of characters taken. -/
  size : Nat
deriving DecidableEq, Inhabited, Repr

namespace Quoting

/-- The character a one-letter escape stands for. -/
def letterEscape? (c : Char) : Option Char :=
  match c with
  | '\\' => some '\\'
  | '\'' => some '\''
  | '"' => some '"'
  | 'a' => some '\x07'
  | 'b' => some '\x08'
  | 'f' => some '\x0c'
  | 'n' => some '\n'
  | 'r' => some '\r'
  | 't' => some '\t'
  | 'v' => some '\x0b'
  | _ => none

/-- The character with the given code, unless the code is none of a character. -/
def charOfCode? (code : Nat) : Option Char :=
  if code.isValidChar then some (Char.ofNat code) else none

/-- An escape by exactly `count` hexadecimal digits after its letter; malformed without them or
where they name no character, and then only the letter is taken. -/
def hexEscape (count : Nat) (rest : List Char) : Part :=
  let digits := (rest.take count).filterMap digitValue?
  let code := if digits.length = count then charOfCode? (valueInRadix 16 digits) else none
  match code with
  | some c => ⟨[c], false, count + 1⟩
  | none => ⟨[], true, 1⟩

/-- An escape by up to three octal digits, the first given. -/
def octalEscape (first : Char) (rest : List Char) : Part :=
  let digits := first :: (rest.take 2).takeWhile fun c => (digitInRadix? 8 c).isSome
  ⟨[Char.ofNat (valueInRadix 8 (digits.filterMap (digitInRadix? 8)))], false, digits.length⟩

/-- The escape whose first character after the backslash is `next`. -/
def escape (q : Quoting) (next : Char) (rest : List Char) : Part :=
  match letterEscape? next with
  | some c => ⟨[c], false, 1⟩
  | none =>
    if next = '\n' then ⟨[], false, 1⟩
    else if next = '\r' then ⟨[], false, if rest.head? = some '\n' then 2 else 1⟩
    else if (digitInRadix? 8 next).isSome then octalEscape next rest
    else if next = 'x' then hexEscape 2 rest
    else if next = 'u' && !q.bytes then hexEscape 4 rest
    else if next = 'U' && !q.bytes then hexEscape 8 rest
    else ⟨['\\', next], false, 1⟩

/-- What stands next in the string, at the character `c` before `rest`. -/
def step (q : Quoting) (c : Char) (rest : List Char) : StringStep :=
  if (c = '\n' || c = '\r') && !q.triple then .broken
  else if c = '\\' then
    match rest with
    | [] => .part ⟨['\\'], false, 0⟩
    | next :: rest =>
      if q.raw then .part ⟨['\\', next], false, 1⟩ else .part (q.escape next rest)
  else if c = q.quote then
    if !q.triple then .close 0
    else if rest.take 2 = [q.quote, q.quote] then .close 2
    else .part ⟨[c], false, 0⟩
  else .part ⟨[c], false, 0⟩

/-- Reads on to the end of the string. -/
def readBody (q : Quoting) (sofar : StringBody) : List Char → StringBody
  | [] => { sofar with unterminated := true }
  | c :: rest =>
    match q.step c rest with
    | .close more => { sofar with size := sofar.size + 1 + more }
    | .broken => { sofar with unterminated := true }
    | .part part =>
      readBody q
        { sofar with
          value := sofar.value ++ String.ofList part.value
          malformed := sofar.malformed || part.malformed
          size := sofar.size + 1 + part.more }
        (rest.drop part.more)
termination_by text => text.length
decreasing_by
  simp only [List.length_drop, List.length_cons]
  omega

end Quoting

namespace StringLiteral

/-- The string whose opening quote stands at the front of `text`, with the flags of the letters
before it, and how many characters it takes. -/
def read (letters : List StringFlag) (quote : Char) (text : List Char) : StringLiteral × Nat :=
  let triple : Bool := text.take 3 == [quote, quote, quote]
  let opening := if triple then 3 else 1
  let quoting : Quoting := ⟨quote, triple, letters.contains .raw, letters.contains .bytes⟩
  let body := quoting.readBody ⟨"", false, false, opening⟩ (text.drop opening)
  let flags := (Flags.ofList letters).insert (if quote = '\'' then .singleQuote else .doubleQuote)
  let flags := if triple then flags.insert .triplicate else flags
  let flags := if body.unterminated then flags.insert .unterminated else flags
  (⟨flags, body.value, body.malformed⟩, body.size)

end StringLiteral

end TypeProbe
