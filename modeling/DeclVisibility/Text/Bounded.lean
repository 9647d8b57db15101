import DeclVisibility.Report
import DeclVisibility.Text.Position

/-!
# Positions in 32 bits

The four counts of a position are kept in 32 bits each, so only a text of fewer bytes than
`Position.limit` has a position at its end. The operations here add positions up as those of
`Position` do, one count after the other, and a count that would not fit is a fault: a position that
they give was counted without wrapping around.

A position is written with its row and its column counted from 1. These are 32 bits wide as well, so
the position of a text that is one byte short of the limit may have no written form
(`Position.display`).
-/

namespace DeclVisibility.Position

/-- One more than the largest number of 32 bits. -/
def limit : Nat := 4294967296

/-- All counts of the position are numbers of 32 bits. -/
structure Fits (p : Position) : Prop where
  index : p.index < limit
  row : p.row < limit
  column8 : p.column8 < limit
  column16 : p.column16 < limit

/-- The sum of two counts, if it is a number of 32 bits. -/
def checkedCount (m n : Nat) : Except Fault Nat :=
  if m + n < limit then .ok (m + n) else .error .positionOverflow

/-- The extent of a text followed by another. The columns of the left one are dropped before
anything is added, so only what counts has to fit. -/
def checkedAdd (p q : Position) : Except Fault Position := do
  let column8 := if 1 ≤ q.row then 0 else p.column8
  let column16 := if 1 ≤ q.row then 0 else p.column16
  let index ← checkedCount p.index q.index
  let row ← checkedCount p.row q.row
  let column8 ← checkedCount column8 q.column8
  let column16 ← checkedCount column16 q.column16
  return { index, row, column8, column16 }

/-- The sum of extents, from left to right. -/
def checkedSum (ps : List Position) : Except Fault Position := ps.foldlM checkedAdd zero

/-- The extent of a text, added up over its characters. -/
def checkedOfString (s : String) : Except Fault Position := checkedSum (s.toList.map ofChar)

/-- Where one gets from a position by texts that follow one another. -/
def checkedAfter (p : Position) (texts : List String) : Except Fault Position :=
  texts.foldlM (fun p text => do p.checkedAdd (← checkedOfString text)) p

/-- The written form `row:column`, both from 1, the column in bytes. -/
def display (p : Position) : Except Fault String := do
  let row ← checkedCount p.row 1
  let column ← checkedCount p.column8 1
  return toString row ++ ":" ++ toString column

/-- The row and the column have a number from 1. -/
structure Displayable (p : Position) : Prop where
  row : p.row + 1 < limit
  column8 : p.column8 + 1 < limit

end DeclVisibility.Position
