import DeclVisibility.Decimal.Shortest
import DeclVisibility.Json.Cause
import DeclVisibility.Json.Value

/-!
# JSON numbers

A number is read in two steps: its parts are scanned off the text (`scanNumber`), then its value
is computed (`Parts.number?`). A number without fraction and exponent that fits an integer of 64
bits is one; any other is a double, and one beyond the largest double is refused.

The double is computed from the leading digits, as many as fit 64 bits, times or divided by a power
of ten, and each of these two steps is rounded.
-/

namespace DeclVisibility.Json

/-- The parts of a number as written. -/
structure Parts where
  negative : Bool
  whole : List Char
  fraction : List Char := []
  /-- Whether the exponent is negative, and its digits. -/
  exponent? : Option (Bool × List Char) := none
  deriving Repr

/-! ## Scanning -/

/-- The digits at the front of a text; there must be one. -/
def scanDigits : Read (List Char)
  | [] => .error .cutShort
  | c :: cs =>
    if c.isDigit then .ok ((c :: cs).takeWhile Char.isDigit, (c :: cs).dropWhile Char.isDigit)
    else .error .malformed

/-- The digits before the point: a leading zero stands alone. -/
def scanWhole : Read (List Char)
  | '0' :: c :: cs => if c.isDigit then .error .malformed else .ok (['0'], c :: cs)
  | cs => scanDigits cs

/-- The digits after the point, none if there is no point. -/
def scanFraction : Read (List Char)
  | '.' :: cs => scanDigits cs
  | cs => .ok ([], cs)

/-- The digits of an exponent after its letter, with their sign. -/
def scanSigned : Read (Bool × List Char)
  | '+' :: cs => Read.map (false, ·) scanDigits cs
  | '-' :: cs => Read.map (true, ·) scanDigits cs
  | cs => Read.map (false, ·) scanDigits cs

/-- The exponent, if there is one. -/
def scanExponent : Read (Option (Bool × List Char))
  | 'e' :: cs => Read.map some scanSigned cs
  | 'E' :: cs => Read.map some scanSigned cs
  | cs => .ok (none, cs)

/-- The parts of a number without its sign. -/
def scanUnsigned (negative : Bool) : Read Parts := fun cs =>
  match scanWhole cs with
  | .error cause => .error cause
  | .ok (whole, cs) =>
    match scanFraction cs with
    | .error cause => .error cause
    | .ok (fraction, cs) =>
      match scanExponent cs with
      | .error cause => .error cause
      | .ok (exponent?, cs) => .ok ({ negative, whole, fraction, exponent? }, cs)

/-- The parts of a number. -/
def scanNumber : Read Parts
  | '-' :: cs => scanUnsigned true cs
  | cs => scanUnsigned false cs

/-! ## Computing the value -/

/-- The value of a digit. -/
def digitValue (c : Char) : Nat := c.toNat - '0'.toNat

/-- The value of a run of digits. -/
def digitsValue (cs : List Char) : Nat := cs.foldl (fun n c => n * 10 + digitValue c) 0

/-- One more than the largest natural number of 64 bits. -/
def wordLimit : Nat := 0x10000000000000000

/-- One more than the largest number of 64 bits whose leading bit is not set. -/
def signLimit : Nat := 0x8000000000000000

/-- Appends digits to a number as long as it stays below 2^64; also tells how many were taken. -/
def takeDigits (n : Nat) : List Char → Nat × Nat
  | [] => (n, 0)
  | c :: cs =>
    let next := n * 10 + digitValue c
    if next < wordLimit then
      let (m, taken) := takeDigits next cs
      (m, taken + 1)
    else (n, 0)

/-- A power of ten as the nearest double. -/
def powerOfTen (k : Nat) : Float := Float.ofScientific 1 false k

/-- A double times a power of ten, unless it is too large; an exponent far below zero is worked
off in steps. -/
def scaled : Nat → Float → Int → Option Float
  | 0, x, _ => some x
  | fuel + 1, x, e =>
    if e.natAbs ≤ 308 then
      if 0 ≤ e then
        let y := x * powerOfTen e.natAbs
        if y.isInf then none else some y
      else some (x / powerOfTen e.natAbs)
    else if x == 0 then some x
    else if 0 ≤ e then none
    else scaled fuel (x / powerOfTen 308) (e + 308)

/-- The double of a sign and a magnitude. -/
def signedDouble (negative : Bool) (x : Float) : Number :=
  .double (if negative then -x else x).toBits

/-- The value of a number without fraction and exponent, all of whose digits fit 64 bits. -/
def wholeNumber (negative : Bool) (n : Nat) : Number :=
  if !negative then .natural n
  else if n = 0 ∨ signLimit < n then signedDouble true (UInt64.ofNat n).toFloat
  else .negative n

/-- The value of a number, unless it is beyond the largest double. -/
def Parts.number? (p : Parts) : Option Number :=
  let (n, wholeTaken) := takeDigits 0 p.whole
  let dropped := p.whole.length - wholeTaken
  if p.fraction.isEmpty && p.exponent?.isNone && dropped == 0 then some (wholeNumber p.negative n)
  else
    let (m, fractionTaken) := takeDigits n p.fraction
    let written : Int :=
      match p.exponent? with
      | some (true, digits) => -(digitsValue digits : Int)
      | some (false, digits) => digitsValue digits
      | none => 0
    (scaled 4 (UInt64.ofNat m).toFloat (dropped - fractionTaken + written)).map
      (signedDouble p.negative)

/-- Reads a number. -/
def readNumber : Read Number := fun cs =>
  match scanNumber cs with
  | .error cause => .error cause
  | .ok (parts, rest) =>
    match parts.number? with
    | some n => .ok (n, rest)
    | none => .error .malformed

/-- Reads over a number whose value does not matter; a number that ends too early is no number. -/
def skipNumber : Read Unit := fun cs =>
  match scanNumber cs with
  | .error _ => .error .malformed
  | .ok (_, rest) => .ok ((), rest)

/-! ## Writing -/

/-- The digits of a natural number. -/
def decimalDigits (n : Nat) : List Char := Nat.toDigits 10 n

/-- A decimal as written: with a point while it is not too long, else with an exponent, which
carries its sign. -/
def scientificText (s : Decimal.Scientific) : List Char :=
  let digits := decimalDigits s.digits
  let point : Int := digits.length + s.exponent
  if 0 ≤ s.exponent ∧ point ≤ 16 then
    digits ++ List.replicate s.exponent.toNat '0' ++ ['.', '0']
  else if 0 < point ∧ point ≤ 16 then
    digits.take point.toNat ++ '.' :: digits.drop point.toNat
  else if -5 < point ∧ point ≤ 0 then
    '0' :: '.' :: List.replicate (-point).toNat '0' ++ digits
  else
    let mantissa := if digits.length = 1 then digits else digits.take 1 ++ '.' :: digits.drop 1
    let e := point - 1
    mantissa ++ 'e' :: (if e < 0 then '-' else '+') :: decimalDigits e.natAbs

/-- The written form of a number. -/
def Number.text : Number → List Char
  | .natural n => decimalDigits n
  | .negative n => '-' :: decimalDigits n
  | .double bits =>
    let sign := if bits.toNat / signLimit = 1 then ['-'] else []
    let magnitude := Decimal.Binary.ofBits bits
    sign ++ (if magnitude.mantissa = 0 then ['0', '.', '0']
      else scientificText (Decimal.shortest magnitude))

end DeclVisibility.Json
