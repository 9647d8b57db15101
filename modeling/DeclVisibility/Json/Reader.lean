import DeclVisibility.Json.Number
import DeclVisibility.Json.Text

/-!
# Reading JSON values

Lists and objects are read by two loops, `items` and `members`, which are told how to read one
item, or what to do with the member of a key. `value` ties them into a reader of whole values,
nested at most as deep as it is told, and `skipValue` into one that reads over a value of any
depth. `whole` demands that nothing but blanks follows.

A loop takes at least one character per round, so as many rounds as there are characters are
enough.
-/

namespace DeclVisibility.Json

/-- How deep a text may be nested. -/
def maxDepth : Nat := 127

/-! ## Lists and objects -/

/-- Where the next item of a list stands: the text of the item, or what is behind the closing
bracket. -/
inductive Next where
  | entry (cs : List Char)
  | done (rest : List Char)
  deriving DecidableEq, Repr

/-- Looks for the next item of a list; before all but the first there is a comma. -/
def nextItem (first : Bool) (cs : List Char) : Except Cause Next :=
  match skipGap cs with
  | [] => .error .cutShort
  | c :: rest =>
    if c = ']' then .ok (.done rest)
    else if first then .ok (.entry (c :: rest))
    else if c = ',' then
      match skipGap rest with
      | [] => .error .cutShort
      | d :: more => if d = ']' then .error .malformed else .ok (.entry (d :: more))
    else .error .malformed

/-- Looks for the key of the next member of an object, behind its opening quote. -/
def nextKey (first : Bool) (cs : List Char) : Except Cause Next :=
  match skipGap cs with
  | [] => .error .cutShort
  | c :: rest =>
    if c = '\x7d' then .ok (.done rest)
    else if first then
      if c = '"' then .ok (.entry rest) else .error .malformed
    else if c = ',' then
      match skipGap rest with
      | [] => .error .cutShort
      | d :: more => if d = '"' then .ok (.entry more) else .error .malformed
    else .error .malformed

/-- Reads the colon after a key. -/
def colon : Read Unit := fun cs =>
  match skipGap cs with
  | [] => .error .cutShort
  | c :: rest => if c = ':' then .ok ((), rest) else .error .malformed

/-- Reads the items of a list up to its closing bracket. -/
def items {α : Type} (item : Read α) : Nat → Bool → Read (List α)
  | 0, _, _ => .error .malformed
  | fuel + 1, first, cs =>
    match nextItem first cs with
    | .error cause => .error cause
    | .ok (.done rest) => .ok ([], rest)
    | .ok (.entry cs) =>
      match item cs with
      | .error cause => .error cause
      | .ok (a, cs) =>
        match items item fuel false cs with
        | .error cause => .error cause
        | .ok (others, rest) => .ok (a :: others, rest)

/-- Reads a whole list behind its opening bracket. -/
def list {α : Type} (item : Read α) : Read (List α) := fun cs =>
  items item (cs.length + 1) true cs

/-- Reads the members of an object up to its closing brace. `plan` is told what was gathered so far
and the next key, and says how to read the value of the key, or why the key is refused. -/
def members {κ σ : Type} (key : Read κ) (plan : σ → κ → Except Cause (Read σ)) :
    Nat → Bool → σ → Read σ
  | 0, _, _, _ => .error .malformed
  | fuel + 1, first, gathered, cs =>
    match nextKey first cs with
    | .error cause => .error cause
    | .ok (.done rest) => .ok (gathered, rest)
    | .ok (.entry cs) =>
      match key cs with
      | .error cause => .error cause
      | .ok (k, cs) =>
        match plan gathered k with
        | .error cause => .error cause
        | .ok read =>
          match colon cs with
          | .error cause => .error cause
          | .ok ((), cs) =>
            match read cs with
            | .error cause => .error cause
            | .ok (gathered, cs) => members key plan fuel false gathered cs

/-- Reads a whole object behind its opening brace. -/
def object {κ σ : Type} (key : Read κ) (plan : σ → κ → Except Cause (Read σ)) (start : σ) :
    Read σ := fun cs => members key plan (cs.length + 1) true start cs

/-! ## Values -/

/-- Reads a value that is neither a list nor an object. -/
def scalar : Read Value := fun cs =>
  match cs with
  | [] => .error .cutShort
  | c :: rest =>
    if c = 'n' then Read.map (fun () => .null) (word ['u', 'l', 'l']) rest
    else if c = 't' then Read.map (fun () => .bool true) (word ['r', 'u', 'e']) rest
    else if c = 'f' then Read.map (fun () => .bool false) (word ['a', 'l', 's', 'e']) rest
    else if c = '"' then Read.map .string readText rest
    else if c = '-' ∨ c.isDigit then Read.map .number readNumber (c :: rest)
    else .error .malformed

/-- What an object of any members gathers: the members so far, the last one first. -/
def collect (read : Read Value) (gathered : List (String × Value)) (key : String) :
    Except Cause (Read (List (String × Value))) :=
  .ok (Read.map (fun v => (key, v) :: gathered) read)

/-- Reads a value nested at most `depth` levels deep. -/
def value : Nat → Read Value
  | 0, cs =>
    match skipGap cs with
    | '[' :: _ => .error .malformed
    | '\x7b' :: _ => .error .malformed
    | cs => scalar cs
  | depth + 1, cs =>
    match skipGap cs with
    | '[' :: rest => Read.map .array (list (value depth)) rest
    | '\x7b' :: rest =>
      Read.map (fun gathered => .object gathered.reverse)
        (object readText (collect (value depth)) []) rest
    | cs => scalar cs

/-- Reads over a value that is neither a list nor an object. -/
def skipScalar : Read Unit := fun cs =>
  match cs with
  | [] => .error .cutShort
  | c :: rest =>
    if c = 'n' then word ['u', 'l', 'l'] rest
    else if c = 't' then word ['r', 'u', 'e'] rest
    else if c = 'f' then word ['a', 'l', 's', 'e'] rest
    else if c = '"' then skipText rest
    else if c = '-' ∨ c.isDigit then skipNumber (c :: rest)
    else .error .malformed

/-- Reads over a value nested at most `fuel` levels deep. -/
def skipNested : Nat → Read Unit
  | 0, cs =>
    match skipGap cs with
    | '[' :: _ => .error .malformed
    | '\x7b' :: _ => .error .malformed
    | cs => skipScalar cs
  | fuel + 1, cs =>
    match skipGap cs with
    | '[' :: rest => Read.map (fun _ => ()) (list (skipNested fuel)) rest
    | '\x7b' :: rest => object skipText (fun () () => .ok (skipNested fuel)) () rest
    | cs => skipScalar cs

/-- Reads over a value; there is no limit to its depth. -/
def skipValue : Read Unit := fun cs => skipNested cs.length cs

/-! ## Shapes -/

/-- Refuses a value that is not of the shape asked for: because of its shape if it is good JSON as
far as it takes to see that, else for the fault in it. -/
def misshapen {α : Type} : Read α := fun cs =>
  match skipGap cs with
  | [] => .error .cutShort
  | c :: rest =>
    if c = '[' ∨ c = '\x7b' then .error .wrongShape
    else
      match scalar (c :: rest) with
      | .error cause => .error cause
      | .ok _ => .error .wrongShape

/-- Reads a string. -/
def string : Read String := fun cs =>
  match skipGap cs with
  | '"' :: rest => readText rest
  | cs => misshapen cs

/-- Reads null as nothing, and anything else as it is. -/
def optional {α : Type} (read : Read α) : Read (Option α) := fun cs =>
  match skipGap cs with
  | 'n' :: rest => Read.map (fun () => none) (word ['u', 'l', 'l']) rest
  | cs => Read.map some read cs

/-- Reads a list of items at most `depth` levels deep, the list included. -/
def listOf {α : Type} (item : Nat → Read α) (depth : Nat) : Read (List α) := fun cs =>
  match skipGap cs with
  | '[' :: rest =>
    match depth with
    | 0 => .error .malformed
    | inner + 1 => list (item inner) rest
  | cs => misshapen cs

/-- The next field of a record that is written as a list, if there is one. -/
def field {α : Type} (read : Read α) (first : Bool) : Read (Option α) := fun cs =>
  match nextItem first cs with
  | .error cause => .error cause
  | .ok (.done rest) => .ok (none, ']' :: rest)
  | .ok (.entry cs) => Read.map some read cs

/-- Reads the closing bracket of a record that is written as a list. -/
def closeRecord : Read Unit := fun cs =>
  match skipGap cs with
  | [] => .error .cutShort
  | c :: rest =>
    if c = ']' then .ok ((), rest) else .error .malformed

/-- Reads a record with named fields, which may be written as an object, or as a list of the fields
in their order. -/
def record {α : Type} (asList asObject : Nat → Read α) (depth : Nat) : Read α := fun cs =>
  match skipGap cs with
  | '[' :: rest =>
    match depth with
    | 0 => .error .malformed
    | inner + 1 => asList inner rest
  | '\x7b' :: rest =>
    match depth with
    | 0 => .error .malformed
    | inner + 1 => asObject inner rest
  | cs => misshapen cs

/-- Reads a whole text: a value with nothing but blanks behind it. -/
def whole {α : Type} (read : Read α) (text : String) : Except Cause α :=
  match read text.toList with
  | .error cause => .error cause
  | .ok (a, rest) =>
    match skipGap rest with
    | [] => .ok a
    | _ => .error .malformed

end DeclVisibility.Json
