/-!
# Reading JSON: refusals and the smallest parts

A reader takes a list of characters and gives a value with the characters that it left, or the
cause of its refusal. There are three causes: the text breaks the grammar, the text ends too
early, or the text is good JSON of the wrong shape.
-/

namespace DeclVisibility.Json

/-- Why a text is refused. -/
inductive Cause where
  /-- The text is no JSON, or nested too deep, or goes on after the value. -/
  | malformed
  /-- The value is not of the shape asked for. -/
  | wrongShape
  /-- The text ends too early. -/
  | cutShort
  deriving DecidableEq, Repr

/-- Reads a value off the front of a text. -/
abbrev Read (α : Type) : Type := List Char → Except Cause (α × List Char)

/-- The blanks between the parts of a JSON text. -/
def isGap (c : Char) : Bool := c == ' ' || c == '\n' || c == '\t' || c == '\r'

/-- The text from the first character that is no blank. -/
def skipGap (cs : List Char) : List Char := cs.dropWhile isGap

/-- Reads the characters of a word. -/
def word : List Char → Read Unit
  | [], cs => .ok ((), cs)
  | _ :: _, [] => .error .cutShort
  | expected :: more, c :: cs => if c = expected then word more cs else .error .malformed

/-- A reader whose value is passed through a function. -/
def Read.map {α β : Type} (f : α → β) (read : Read α) : Read β := fun cs =>
  match read cs with
  | .error cause => .error cause
  | .ok (a, rest) => .ok (f a, rest)

end DeclVisibility.Json
