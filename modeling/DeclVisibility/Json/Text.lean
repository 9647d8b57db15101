import DeclVisibility.Json.Cause

/-!
# JSON strings

Writing a string escapes the quote, the backslash and the controls (`writeText`); reading undoes
that and the other escapes that JSON allows (`readText`). A character beyond the basic plane may be
written as two escapes, a leading and a trailing half; a half without the other is refused. Where
the string does not matter (`skipText`) halves are not checked.
-/

namespace DeclVisibility.Json

/-! ## Reading -/

/-- The value of a hexadecimal digit. -/
def hexValue? (c : Char) : Option Nat :=
  if c.isDigit then some (c.toNat - '0'.toNat)
  else if 'a' ≤ c ∧ c ≤ 'f' then some (c.toNat - 'a'.toNat + 10)
  else if 'A' ≤ c ∧ c ≤ 'F' then some (c.toNat - 'A'.toNat + 10)
  else none

/-- The value of four hexadecimal digits. -/
def hex4? (a b c d : Char) : Option Nat :=
  match hexValue? a, hexValue? b, hexValue? c, hexValue? d with
  | some a, some b, some c, some d => some (((a * 16 + b) * 16 + c) * 16 + d)
  | _, _, _, _ => none

/-- The character after a backslash that stands for a single character. -/
def shortEscape? (c : Char) : Option Char :=
  if c = '"' then some '"'
  else if c = '\\' then some '\\'
  else if c = '/' then some '/'
  else if c = 'b' then some '\x08'
  else if c = 'f' then some '\x0c'
  else if c = 'n' then some '\n'
  else if c = 'r' then some '\r'
  else if c = 't' then some '\t'
  else none

/-- The number of bytes of a text. -/
def byteCount (cs : List Char) : Nat := cs.foldr (fun c count => c.utf8Size + count) 0

/-- Why four hexadecimal digits cannot be read where fewer than four characters, or others, are
left: fewer than four bytes are too short a text. -/
def hexCause (cs : List Char) : Cause := if byteCount cs < 4 then .cutShort else .malformed

/-- Whether a number is a leading half of a character. -/
def isLeadingHalf (n : Nat) : Bool := 0xD800 ≤ n && n < 0xDC00

/-- Whether a number is a trailing half of a character. -/
def isTrailingHalf (n : Nat) : Bool := 0xDC00 ≤ n && n < 0xE000

/-- The character of two halves. -/
def joinHalves (leading trailing : Nat) : Char :=
  Char.ofNat ((leading - 0xD800) * 0x400 + (trailing - 0xDC00) + 0x10000)

/-- Puts a character in front of a text that was read. -/
def withFirst (c : Char) (tail : Except Cause (List Char × List Char)) :
    Except Cause (List Char × List Char) :=
  match tail with
  | .error cause => .error cause
  | .ok (cs, rest) => .ok (c :: cs, rest)

/-- Reads the characters of a string up to its closing quote, its opening quote being read. -/
def readChars : Read (List Char)
  | [] => .error .cutShort
  | '"' :: rest => .ok ([], rest)
  | ['\\'] => .error .cutShort
  | '\\' :: 'u' :: a :: b :: c :: d :: rest =>
    match hex4? a b c d with
    | none => .error .malformed
    | some n =>
      if isTrailingHalf n then .error .malformed
      else if isLeadingHalf n then
        match rest with
        | [] => .error .cutShort
        | ['\\'] => .error .cutShort
        | '\\' :: 'u' :: e :: f :: g :: h :: rest =>
          match hex4? e f g h with
          | none => .error .malformed
          | some m =>
            if isTrailingHalf m then withFirst (joinHalves n m) (readChars rest)
            else .error .malformed
        | '\\' :: 'u' :: rest => .error (hexCause rest)
        | _ => .error .malformed
      else withFirst (Char.ofNat n) (readChars rest)
  | '\\' :: 'u' :: rest => .error (hexCause rest)
  | '\\' :: c :: rest =>
    match shortEscape? c with
    | some e => withFirst e (readChars rest)
    | none => .error .malformed
  | c :: rest => if c.toNat < 0x20 then .error .malformed else withFirst c (readChars rest)

/-- Reads a string, its opening quote being read. -/
def readText : Read String := Read.map String.ofList readChars

/-- Reads over a string, its opening quote being read; halves of characters may stand alone. -/
def skipText : Read Unit
  | [] => .error .cutShort
  | '"' :: rest => .ok ((), rest)
  | ['\\'] => .error .cutShort
  | '\\' :: 'u' :: a :: b :: c :: d :: rest =>
    match hex4? a b c d with
    | none => .error .malformed
    | some _ => skipText rest
  | '\\' :: 'u' :: rest => .error (hexCause rest)
  | '\\' :: c :: rest =>
    match shortEscape? c with
    | some _ => skipText rest
    | none => .error .malformed
  | c :: rest => if c.toNat < 0x20 then .error .malformed else skipText rest

/-! ## Writing -/

/-- A hexadecimal digit, in lower case. -/
def hexDigit (n : Nat) : Char := Nat.digitChar n

/-- One character of a written string. -/
def escapeChar (c : Char) : List Char :=
  if c = '"' then ['\\', '"']
  else if c = '\\' then ['\\', '\\']
  else if c = '\x08' then ['\\', 'b']
  else if c = '\x0c' then ['\\', 'f']
  else if c = '\n' then ['\\', 'n']
  else if c = '\r' then ['\\', 'r']
  else if c = '\t' then ['\\', 't']
  else if c.toNat < 0x20 then
    ['\\', 'u', '0', '0', hexDigit (c.toNat / 16), hexDigit (c.toNat % 16)]
  else [c]

/-- The written form of a string, with its quotes. -/
def writeText (s : String) : List Char := '"' :: s.toList.flatMap escapeChar ++ ['"']

end DeclVisibility.Json
