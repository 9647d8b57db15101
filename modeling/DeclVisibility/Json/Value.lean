/-!
# JSON values

A JSON value as it is written: the members of an object stand in their written order, and a key
may stand more than once (`Value.settled` keeps the last of each). A number is an integer of 64
bits, or a double by its bits.
-/

namespace DeclVisibility.Json

/-- A number of a JSON text. -/
inductive Number where
  /-- A natural number below 2^64. -/
  | natural (n : Nat)
  /-- The negative of a number from 1 up to 2^63. -/
  | negative (n : Nat)
  /-- A double, by its bits. -/
  | double (bits : UInt64)
  deriving DecidableEq, Repr

/-- A value of a JSON text. -/
inductive Value where
  | null
  | bool (b : Bool)
  | number (n : Number)
  | string (s : String)
  | array (items : List Value)
  | object (members : List (String × Value))
  deriving Repr, Inhabited

namespace Value

/-- Members without those whose key comes again later. -/
def lastOfEach : List (String × Value) → List (String × Value)
  | [] => []
  | (key, value) :: rest =>
    if rest.any fun other => other.1 == key then lastOfEach rest
    else (key, value) :: lastOfEach rest

/-- Whether a member's key comes first in the order of code points, or both are the same. -/
def keyLe (a b : String × Value) : Bool := !(decide (b.1 < a.1))

mutual
/-- The value with the last member of each key only, sorted by key, at every level. -/
def settled : Value → Value
  | array items => array (settledItems items)
  | object members => object ((lastOfEach (settledMembers members)).mergeSort keyLe)
  | null => null
  | bool b => bool b
  | number n => number n
  | string s => string s
/-- Every item settled. -/
def settledItems : List Value → List Value
  | [] => []
  | item :: rest => item.settled :: settledItems rest
/-- Every member's value settled. -/
def settledMembers : List (String × Value) → List (String × Value)
  | [] => []
  | (key, value) :: rest => (key, value.settled) :: settledMembers rest
end

end Value

end DeclVisibility.Json
