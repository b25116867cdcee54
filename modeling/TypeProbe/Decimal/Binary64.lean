/-!
# Numbers with 53 significant bits

A `Binary64` is what a number written with a fraction or an exponent stands for: a sign, a
significand and a power of two, an infinity, or no number at all. `ofRatio` rounds a positive ratio
of two whole numbers to the nearest such value, a tie going to the even significand. All else that
rounds goes through it: `ofNat`, `ofScientific`, and the product and the quotient of two values.
`parse?` reads the usual spellings.
-/

namespace TypeProbe

/-- A binary floating-point number of 64 bits. -/
inductive Binary64 where
  /-- The value `significand * 2 ^ exponent`, negated if the sign is set. The significand is below
  `2 ^ 53`, and at least `2 ^ 52` unless the exponent is the least, `-1074`. -/
  | finite (negative : Bool) (significand : Nat) (exponent : Int)
  /-- Beyond every finite value. -/
  | infinite (negative : Bool)
  /-- Not a number. -/
  | nan
deriving DecidableEq, Inhabited, Repr

namespace Binary64

/-- The least exponent of a finite value. -/
def leastExponent : Int := -1074

/-- The greatest exponent of a finite value. -/
def greatestExponent : Int := 971

/-- Zero with a sign. -/
def zero (negative : Bool) : Binary64 := .finite negative 0 leastExponent

/-- The least significand of an exponent above the least, `2 ^ 52`. -/
def leastSignificand : Nat := 0x10000000000000

/-- Every significand is below this, `2 ^ 53`. -/
def significandLimit : Nat := 0x20000000000000

/-- The ratio `num / den` as a ratio in units of `2 ^ exponent`. -/
def inUnits (num den : Nat) (exponent : Int) : Nat × Nat :=
  (num * Nat.pow 2 (-exponent).toNat, den * Nat.pow 2 exponent.toNat)

/-- The quotient rounded to the nearest whole number, a tie to the even one. -/
def roundHalfEven (num den : Nat) : Nat :=
  let q := num / den
  let twice := 2 * (num % den)
  if twice < den then q else if den < twice then q + 1 else q + q % 2

/-- The exponent at which the ratio has 53 bits before the point, or the least exponent. -/
def exponentOf (num den : Nat) : Int :=
  let guess : Int := (num.log2 : Int) - (den.log2 : Int) - 53
  let (n, d) := inUnits num den guess
  max leastExponent (if n / d < significandLimit then guess else guess + 1)

/-- The value nearest to the ratio of two whole numbers, the second positive. -/
def ofRatio (negative : Bool) (num den : Nat) : Binary64 :=
  if num = 0 then zero negative
  else
    let exponent := exponentOf num den
    let (n, d) := inUnits num den exponent
    let rounded := roundHalfEven n d
    let (significand, exponent) :=
      if rounded = significandLimit then (leastSignificand, exponent + 1) else (rounded, exponent)
    if greatestExponent < exponent then .infinite negative
    else .finite negative significand exponent

/-- The value nearest to a whole number. -/
def ofNat (n : Nat) : Binary64 := ofRatio false n 1

/-- The value nearest to `num / den * 2 ^ exponent`. -/
def ofScaledRatio (negative : Bool) (num den : Nat) (exponent : Int) : Binary64 :=
  let (n, d) := inUnits num den (-exponent)
  ofRatio negative n d

/-- The value nearest to the product. That of zero and an infinity is no number. -/
def times : Binary64 → Binary64 → Binary64
  | .nan, _ => .nan
  | _, .nan => .nan
  | .finite s m e, .finite t n f => ofScaledRatio (s != t) (m * n) 1 (e + f)
  | .finite s m _, .infinite t => if m = 0 then .nan else .infinite (s != t)
  | .infinite s, .finite t n _ => if n = 0 then .nan else .infinite (s != t)
  | .infinite s, .infinite t => .infinite (s != t)

/-- The value nearest to the quotient. Division by zero is beyond all finite values, and that of
zero by zero, or of an infinity by an infinity, is no number. -/
def dividedBy : Binary64 → Binary64 → Binary64
  | .nan, _ => .nan
  | _, .nan => .nan
  | .finite s m e, .finite t n f =>
    if n = 0 then if m = 0 then .nan else .infinite (s != t)
    else ofScaledRatio (s != t) m n (e - f)
  | .finite s _ _, .infinite t => zero (s != t)
  | .infinite s, .finite t _ _ => .infinite (s != t)
  | .infinite _, .infinite _ => .nan

/-- Whether a value is a zero. -/
def isZero : Binary64 → Bool
  | .finite _ significand _ => significand == 0
  | _ => false

/-- The number of decimal digits of a whole number; zero has one. -/
def digitCount (n : Nat) : Nat := (Nat.toDigits 10 n).length

/-- The value nearest to `digits * 10 ^ power`. Powers far outside the range of finite values are
decided by the number of digits alone. -/
def ofScientific (negative : Bool) (digits : Nat) (power : Int) : Binary64 :=
  if digits = 0 then zero negative
  else
    let magnitude : Int := digitCount digits + power
    if 400 < magnitude then .infinite negative
    else if magnitude < -400 then zero negative
    else ofRatio negative (digits * Nat.pow 10 power.toNat) (Nat.pow 10 (-power).toNat)

/-- The number with the given decimal digits, other characters skipped. -/
def digitsValue (digits : List Char) : Nat :=
  digits.foldl (fun n c => if c.isDigit then 10 * n + (c.toNat - '0'.toNat) else n) 0

/-- Splits a text into the digits at its front and the rest. -/
def splitDigits (text : List Char) : List Char × List Char := text.span Char.isDigit

/-- Reads a power of ten after its mark: a sign or none, then at least one digit to the end. -/
def parseExponent? (text : List Char) : Option Int :=
  let (negative, digits) := match text with
    | '-' :: rest => (true, rest)
    | '+' :: rest => (false, rest)
    | _ => (false, text)
  if digits.isEmpty || !digits.all Char.isDigit then none
  else some (if negative then -(digitsValue digits : Int) else digitsValue digits)

/-- Reads a number without its sign: digits with at most one point among or beside them, and
possibly a power of ten. -/
def parseUnsigned? (negative : Bool) (text : List Char) : Option Binary64 :=
  let (whole, rest) := splitDigits text
  let (part, rest) := match rest with
    | '.' :: rest => splitDigits rest
    | _ => ([], rest)
  if whole.isEmpty && part.isEmpty then none
  else
    let digits := digitsValue (whole ++ part)
    match rest with
    | [] => some (ofScientific negative digits (-(part.length : Int)))
    | mark :: rest =>
      if mark = 'e' ∨ mark = 'E' then
        (parseExponent? rest).map fun power => ofScientific negative digits (power - part.length)
      else none

/-- Reads a number: a sign or none, then digits or, in any case of letters, the word for infinity or
for no number. -/
def parse? (text : List Char) : Option Binary64 :=
  let (negative, body) := match text with
    | '-' :: rest => (true, rest)
    | '+' :: rest => (false, rest)
    | _ => (false, text)
  let word := String.ofList (body.map Char.toLower)
  if word = "inf" ∨ word = "infinity" then some (.infinite negative)
  else if word = "nan" then some .nan
  else parseUnsigned? negative body

/-- Whether two numbers are equal: the two zeros are, and what is no number equals nothing. -/
def equals : Binary64 → Binary64 → Bool
  | .nan, _ => false
  | _, .nan => false
  | .finite _ 0 _, .finite _ 0 _ => true
  | x, y => x == y

end Binary64

end TypeProbe
