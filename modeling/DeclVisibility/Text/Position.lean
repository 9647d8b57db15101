/-!
# Positions and ranges in a text

A position counts the text before it in four ways at once: bytes, rows, and the column in bytes
and in UTF-16 units. Positions add up as texts are put one after the other: `Position.ofString`
sends the text of two pieces to the sum of their positions, where a line feed in the right piece
starts the columns afresh. Positions of one text are compared by their byte index alone.
-/

namespace DeclVisibility

/-- A place in a text, as the extent of the text before it. -/
structure Position where
  /-- UTF-8 bytes before the position. -/
  index : Nat
  /-- Line feeds before the position. -/
  row : Nat
  /-- UTF-8 bytes after the last line feed. -/
  column8 : Nat
  /-- UTF-16 units after the last line feed. -/
  column16 : Nat
  deriving DecidableEq, Repr

namespace Position

/-- The start of a text. -/
def zero : Position := ⟨0, 0, 0, 0⟩

/-- The number of UTF-16 units of a character: two beyond the basic plane. -/
def units16 (c : Char) : Nat := if c.toNat < 0x10000 then 1 else 2

/-- The extent of one character. -/
def ofChar (c : Char) : Position :=
  if c = '\n' then ⟨1, 1, 0, 0⟩ else ⟨c.utf8Size, 0, c.utf8Size, units16 c⟩

/-- The extent of a text followed by another: the columns of the left one count only if the right
one stays on its row. -/
def add (p q : Position) : Position where
  index := p.index + q.index
  row := p.row + q.row
  column8 := if 1 ≤ q.row then q.column8 else p.column8 + q.column8
  column16 := if 1 ≤ q.row then q.column16 else p.column16 + q.column16

instance : Add Position := ⟨add⟩

/-- The sum of extents, from left to right. -/
def sum (ps : List Position) : Position := ps.foldl (· + ·) zero

/-- The extent of a list of characters. -/
def ofChars (cs : List Char) : Position := sum (cs.map ofChar)

/-- The extent of a text, which is the position of its end. -/
def ofString (s : String) : Position := ofChars s.toList

/-- The order of positions of one text: by byte index. -/
def order (p q : Position) : Ordering := compare p.index q.index

/-- Whether two positions of one text are the same place. -/
def sameIndex (p q : Position) : Bool := p.index == q.index

end Position

/-- A stretch of a text; the position `stop` is outside it. -/
structure Range where
  start : Position
  stop : Position
  deriving DecidableEq, Repr

namespace Range

/-- The empty range at a position. -/
def emptyAt (p : Position) : Range := ⟨p, p⟩

/-- Whether the range holds no text. -/
def isEmpty (r : Range) : Bool := r.start.sameIndex r.stop

/-- The written form `row.column-row.column`. -/
def display (r : Range) : String :=
  toString (r.start.row + 1) ++ "." ++ toString (r.start.column8 + 1) ++ "-" ++
    toString (r.stop.row + 1) ++ "." ++ toString (r.stop.column8 + 1)

end Range

end DeclVisibility
