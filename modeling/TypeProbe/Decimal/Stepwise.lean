import TypeProbe.Decimal.Binary64

/-!
# Decimals in rounded steps

A `ShortDecimal` is a whole number of 64 bits times a power of ten. Digits are taken into the number
as long as it stays below its limit (`takeDigits`); of those that are left, the ones before the
point raise the power of ten and the ones behind it are dropped (`ShortDecimal.ofDigits`).

`ShortDecimal.toBinary64` goes from there to a `Binary64` by few steps, each of which is rounded:
the number, the power of ten, and their product or quotient. So the result need not be the value
nearest to the decimal, in contrast to that of `Binary64.ofScientific`: `7e23` is read as
`6.999999999999999e23`.
-/

namespace TypeProbe

/-- The number of a `ShortDecimal` is below this, `2 ^ 64`. -/
def shortLimit : Nat := 0x10000000000000000

/-- A whole number times a power of ten. -/
structure ShortDecimal where
  /-- The whole number. -/
  number : Nat
  /-- The power of ten. -/
  power : Int
deriving DecidableEq, Inhabited, Repr

/-- Takes digits behind those of a number, up to the first one with which it would not stay below
its limit; yields the number and the digits that are left. -/
def takeDigits : (number : Nat) → List Char → Nat × List Char
  | number, [] => (number, [])
  | number, c :: ds =>
    let longer := 10 * number + (c.toNat - '0'.toNat)
    if longer < shortLimit then takeDigits longer ds else (number, c :: ds)

namespace ShortDecimal

/-- The decimal with the given digits before and behind its point, times a power of ten. Digits
behind the point may still be taken when not all before it were. -/
def ofDigits (whole part : List Char) (power : Int) : ShortDecimal :=
  let (number, wholeLeft) := takeDigits 0 whole
  let (number, partLeft) := takeDigits number part
  { number, power := power + wholeLeft.length + partLeft.length - part.length }

/-- The greatest power of ten that is finite. -/
def greatestPower : Nat := 308

/-- A power of ten, rounded. -/
def powerOfTen (n : Nat) : Binary64 := Binary64.ofNat (Nat.pow 10 n)

/-- Divides by a power of ten: as long as that is not finite, by the greatest one that is. -/
def scaledDown (x : Binary64) (n : Nat) : Binary64 :=
  if x.isZero then x
  else if n ≤ greatestPower then x.dividedBy (powerOfTen n)
  else scaledDown (x.dividedBy (powerOfTen greatestPower)) (n - greatestPower)
termination_by n
decreasing_by
  simp only [greatestPower] at *
  omega

/-- Multiplies by a power of ten. One that is not finite counts as an infinity. -/
def scaledUp (x : Binary64) (n : Nat) : Binary64 :=
  if x.isZero then x
  else if n ≤ greatestPower then x.times (powerOfTen n)
  else x.times (.infinite false)

/-- The value of a decimal with a sign, rounded at every step. -/
def toBinary64 (d : ShortDecimal) (negative : Bool) : Binary64 :=
  let x := Binary64.ofRatio negative d.number 1
  if 0 ≤ d.power then scaledUp x d.power.toNat else scaledDown x (-d.power).toNat

end ShortDecimal

end TypeProbe
