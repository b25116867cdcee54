import TypeProbe.Decimal.Binary64

/-!
# The shortest decimal text of a number

`shortest` finds the fewest significant digits that read back as the given finite value, and of
those the nearest to it. `Format` says how digits and their power of ten are written out;
`compactFormat` is the one of the data format in which tokens and types are shown, `plainFormat` the
one of node lines.
-/

namespace TypeProbe.Decimal

/-- Which way an exact tie between two equally short texts goes. -/
inductive Tie where
  /-- To the digits with the greater value. -/
  | up
  /-- To the digits whose last one is even. -/
  | even
deriving DecidableEq, Inhabited, Repr

/-- The number `0.digits * 10 ^ point`, its digits without zeros at the end. -/
structure Digits where
  /-- The significant digits, as one whole number. -/
  digits : Nat
  /-- Where the point stands, counted from before the first digit. -/
  point : Int
deriving DecidableEq, Inhabited, Repr

/-- The values that round to one finite value, as fractions over a common denominator: they reach
from `low` to `high`, both included if `closed`, and `value` is the finite value itself. -/
structure Interval where
  /-- Numerator of the lower end. -/
  low : Nat
  /-- Numerator of the value. -/
  value : Nat
  /-- Numerator of the upper end. -/
  high : Nat
  /-- The common denominator. -/
  den : Nat
  /-- Whether the two ends belong to it. -/
  closed : Bool
deriving DecidableEq, Inhabited, Repr

/-- The interval of a positive finite value. The ends are half-way to the neighbouring values; the
neighbour below is twice as near where the significand is the least of its exponent. -/
def Interval.of (significand : Nat) (exponent : Int) : Interval :=
  let scale := Nat.pow 2 (exponent - 2).toNat
  let below :=
    if significand = Binary64.leastSignificand ∧ Binary64.leastExponent < exponent then 1 else 2
  { low := (4 * significand - below) * scale
    value := 4 * significand * scale
    high := (4 * significand + 2) * scale
    den := Nat.pow 2 (2 - exponent).toNat
    closed := significand % 2 = 0 }

/-- Whether `digits * 10 ^ power` lies in the interval. -/
def Interval.holds (i : Interval) (digits : Nat) (power : Int) : Bool :=
  let n := digits * Nat.pow 10 power.toNat * i.den
  let unit := Nat.pow 10 (-power).toNat
  if i.closed then i.low * unit ≤ n && n ≤ i.high * unit
  else i.low * unit < n && n < i.high * unit

/-- The `point` for which the ratio of two positive numbers is `0.d... * 10 ^ point` with `d` not
zero. -/
def pointOf (num den : Nat) : Int :=
  if den ≤ num then Binary64.digitCount (num / den)
  else
    let j := Binary64.digitCount (den / num)
    if den ≤ num * Nat.pow 10 (j - 1) then 2 - (j : Int) else 1 - (j : Int)

/-- The digits in the interval on the grid of step `10 ^ power`, if there are any: of the value's
two neighbours on the grid the one that lies in the interval, of two such ones the nearer. -/
def onGrid? (i : Interval) (tie : Tie) (power : Int) : Option Nat :=
  let n := i.value * Nat.pow 10 (-power).toNat
  let d := i.den * Nat.pow 10 power.toNat
  let below := n / d
  let twice := 2 * (n % d)
  match i.holds below power, i.holds (below + 1) power with
  | true, false => some below
  | false, true => some (below + 1)
  | false, false => none
  | true, true =>
    if twice < d then some below
    else if d < twice then some (below + 1)
    else match tie with
      | .up => some (below + 1)
      | .even => some (below + below % 2)

/-- The whole number without the zeros at its end, and how many there are; `fuel` bounds them. -/
def stripZeros : (fuel : Nat) → Nat → Nat × Nat
  | 0, n => (n, 0)
  | fuel + 1, n =>
    if n % 10 = 0 then
      let (m, k) := stripZeros fuel (n / 10)
      (m, k + 1)
    else (n, 0)

/-- The fewest digits that read back as `significand * 2 ^ exponent`; seventeen always suffice. -/
def shortest (tie : Tie) (significand : Nat) (exponent : Int) : Digits :=
  let i := Interval.of significand exponent
  let point := pointOf i.value i.den
  let grids := (List.range 17).map fun (k : Nat) => point - ((k : Int) + 1)
  match grids.findSome? fun power => (onGrid? i tie power).map fun digits => (digits, power) with
  | none => ⟨0, 0⟩
  | some (digits, power) =>
    let (bare, zeros) := stripZeros (Binary64.digitCount digits) digits
    ⟨bare, Binary64.digitCount bare + power + zeros⟩

/-- How a number is written out. -/
structure Format where
  /-- Which of two equally good texts is taken. -/
  tie : Tie
  /-- For which places of the point the number is written without a power of ten. -/
  positional : Int → Bool
  /-- What follows the digits of a whole number written without a power of ten. -/
  wholeEnd : String
  /-- The text of an infinity, by whether it is negative. -/
  infinity : Bool → String
  /-- The text of what is no number. -/
  noNumber : String

/-- In token and type texts a number has a point or a power of ten, the power where the point would
stand more than 16 digits after the first digit or more than five zeros before it. What is not
finite has no text of its own. -/
def compactFormat : Format where
  tie := .even
  positional point := -5 < point && point ≤ 16
  wholeEnd := ".0"
  infinity _ := "null"
  noNumber := "null"

/-- In node lines a number is written in full, and a whole number without a point. -/
def plainFormat : Format where
  tie := .up
  positional _ := true
  wholeEnd := ""
  infinity negative := if negative then "-inf" else "inf"
  noNumber := "NaN"

/-- A text of zeros. -/
def zeros (n : Nat) : String := String.ofList (List.replicate n '0')

/-- Writes out digits without a sign; a power of ten always has one. -/
def Format.digitsText (format : Format) (x : Digits) : String :=
  let digits := Nat.toDigits 10 x.digits
  let count : Int := digits.length
  if format.positional x.point then
    if x.point ≤ 0 then "0." ++ zeros (-x.point).toNat ++ String.ofList digits
    else if count ≤ x.point then
      String.ofList digits ++ zeros (x.point - count).toNat ++ format.wholeEnd
    else
      String.ofList (digits.take x.point.toNat) ++ "." ++ String.ofList (digits.drop x.point.toNat)
  else
    let mantissa := match digits with
      | first :: second :: rest => String.ofList (first :: '.' :: second :: rest)
      | short => String.ofList short
    mantissa ++ (if 0 < x.point then "e+" else "e") ++ toString (x.point - 1)

/-- Writes out a number. -/
def Format.text (format : Format) : Binary64 → String
  | .nan => format.noNumber
  | .infinite negative => format.infinity negative
  | .finite negative significand exponent =>
    (if negative then "-" else "") ++
      if significand = 0 then "0" ++ format.wholeEnd
      else format.digitsText (shortest format.tie significand exponent)

end TypeProbe.Decimal
