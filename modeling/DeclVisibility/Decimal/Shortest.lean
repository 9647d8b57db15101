/-!
# Shortest decimals

The decimal with the fewest digits that a double can be read back from, and among those the one
nearest to the double; of two equally near ones, the one whose last digit is even.

A finite double is `mantissa · 2^exponent`. All numbers that round to it form an interval around
it, whose ends belong to it if the mantissa is even. The search tries one digit, then two, and so
on: a point of a decimal grid lies in the interval only if one of the two grid points around the
double does.
-/

namespace DeclVisibility.Decimal

/-- A positive binary number `mantissa · 2^exponent`. -/
structure Binary where
  mantissa : Nat
  exponent : Int
  deriving DecidableEq, Repr

/-- A decimal number `digits · 10^exponent`. -/
structure Scientific where
  digits : Nat
  exponent : Int
  deriving DecidableEq, Repr

/-- One more than the largest fraction of a double, which has 52 bits. -/
def fractionLimit : Nat := 0x10000000000000

/-- One more than the largest exponent of a double, which has 11 bits. -/
def exponentLimit : Nat := 0x800

/-- The magnitude of a finite double, by its bits without the sign. -/
def Binary.ofBits (bits : UInt64) : Binary :=
  let fraction := bits.toNat % fractionLimit
  let biased : Nat := bits.toNat / fractionLimit % exponentLimit
  if biased = 0 then ⟨fraction, -1074⟩ else ⟨fractionLimit + fraction, (biased : Int) - 1075⟩

/-- A number and the numbers halfway to its neighbours, in quarters of its last place, over a
common denominator. -/
structure Interval where
  low : Nat
  value : Nat
  high : Nat
  denominator : Nat
  /-- Whether the ends belong to the interval. -/
  closed : Bool

/-- The numbers that round to a binary number. The gap below a power of two is half as wide. -/
def Interval.around (b : Binary) : Interval :=
  let below := if b.mantissa = fractionLimit ∧ b.exponent ≠ -1074 then 1 else 2
  let scale := Nat.pow 2 (b.exponent - 2).toNat
  { low := (4 * b.mantissa - below) * scale
    value := 4 * b.mantissa * scale
    high := (4 * b.mantissa + 2) * scale
    denominator := Nat.pow 2 (2 - b.exponent).toNat
    closed := b.mantissa % 2 == 0 }

/-- The interval in units of `10^place`. -/
def Interval.inUnits (i : Interval) (place : Int) : Interval :=
  let up := Nat.pow 10 (-place).toNat
  { i with
    low := i.low * up, value := i.value * up, high := i.high * up
    denominator := i.denominator * Nat.pow 10 place.toNat }

/-- Whether a whole number lies in the interval. -/
def Interval.contains (i : Interval) (n : Nat) : Bool :=
  let x := n * i.denominator
  if i.closed then i.low ≤ x && x ≤ i.high else i.low < x && x < i.high

/-- The whole number of the interval next to its value, if one of the two around it lies in. -/
def Interval.nearest? (i : Interval) : Option Nat :=
  let down := i.value / i.denominator
  let twice := 2 * (i.value % i.denominator)
  let first :=
    if twice < i.denominator || (twice == i.denominator && down % 2 == 0) then down else down + 1
  let second := if first = down then down + 1 else down
  if i.contains first then some first else if i.contains second then some second else none

/-- The place of the leading digit of the value, found by trying places downwards. -/
def Interval.leadingPlace (i : Interval) : Nat → Int → Int
  | 0, place => place
  | fuel + 1, place =>
    if Nat.pow 10 place.toNat * i.denominator ≤ i.value * Nat.pow 10 (-place).toNat then place
    else i.leadingPlace fuel (place - 1)

/-- Tries grids of ever smaller steps. -/
def Interval.search (i : Interval) : Nat → Int → Option Scientific
  | 0, _ => none
  | fuel + 1, place =>
    match (i.inUnits place).nearest? with
    | some digits => if digits = 0 then i.search fuel (place - 1) else some ⟨digits, place⟩
    | none => i.search fuel (place - 1)

/-- Drops the zeros at the end of the digits. -/
def Scientific.trimmed (s : Scientific) : Nat → Scientific
  | 0 => s
  | fuel + 1 =>
    if s.digits % 10 = 0 then (Scientific.mk (s.digits / 10) (s.exponent + 1)).trimmed fuel else s

/-- The shortest decimal that reads back as the binary number, which is positive. -/
def shortest (b : Binary) : Scientific :=
  let i := Interval.around b
  match i.search 18 (i.leadingPlace 640 310) with
  | some s => s.trimmed 18
  | none => ⟨0, 0⟩

end DeclVisibility.Decimal
