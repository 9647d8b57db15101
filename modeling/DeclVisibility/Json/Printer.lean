import DeclVisibility.Json.Number
import DeclVisibility.Json.Text

/-!
# Writing JSON values

Two written forms: `Value.compact` without blanks, and `Value.pretty` with an item or member per
line, two blanks for each level.
-/

namespace DeclVisibility.Json

namespace Value

/-- The written form of a value that is neither a list nor an object. -/
def scalarText : Value → List Char
  | bool true => ['t', 'r', 'u', 'e']
  | bool false => ['f', 'a', 'l', 's', 'e']
  | number n => n.text
  | string s => writeText s
  | _ => ['n', 'u', 'l', 'l']

mutual
/-- The characters of the form without blanks. -/
def compactChars : Value → List Char
  | array items => '[' :: [','].intercalate (compactItems items) ++ [']']
  | object members => '\x7b' :: [','].intercalate (compactMembers members) ++ ['\x7d']
  | null => scalarText null
  | bool b => scalarText (bool b)
  | number n => scalarText (number n)
  | string s => scalarText (string s)
/-- Every item without blanks. -/
def compactItems : List Value → List (List Char)
  | [] => []
  | item :: rest => item.compactChars :: compactItems rest
/-- Every member without blanks. -/
def compactMembers : List (String × Value) → List (List Char)
  | [] => []
  | (key, value) :: rest =>
    (writeText key ++ ':' :: value.compactChars) :: compactMembers rest
end

/-- The form without blanks. -/
def compact (v : Value) : String := String.ofList v.compactChars

/-- A new line with two blanks for each level. -/
def newLine (depth : Nat) : List Char := '\n' :: List.replicate (2 * depth) ' '

mutual
/-- The characters of the form with an entry per line, for a value whose own line is indented by
`depth` levels. -/
def prettyChars (depth : Nat) : Value → List Char
  | array [] => ['[', ']']
  | array (item :: rest) =>
    '[' :: newLine (depth + 1) ++ item.prettyChars (depth + 1) ++ prettyItems (depth + 1) rest ++
      newLine depth ++ [']']
  | object [] => ['\x7b', '\x7d']
  | object ((key, value) :: rest) =>
    '\x7b' :: newLine (depth + 1) ++ writeText key ++ [':', ' '] ++
      value.prettyChars (depth + 1) ++ prettyMembers (depth + 1) rest ++ newLine depth ++ ['\x7d']
  | null => scalarText null
  | bool b => scalarText (bool b)
  | number n => scalarText (number n)
  | string s => scalarText (string s)
/-- The items after the first, each behind a comma. -/
def prettyItems (depth : Nat) : List Value → List Char
  | [] => []
  | item :: rest => ',' :: newLine depth ++ item.prettyChars depth ++ prettyItems depth rest
/-- The members after the first, each behind a comma. -/
def prettyMembers (depth : Nat) : List (String × Value) → List Char
  | [] => []
  | (key, value) :: rest =>
    ',' :: newLine depth ++ writeText key ++ [':', ' '] ++ value.prettyChars depth ++
      prettyMembers depth rest
end

/-- The form with an entry per line. -/
def pretty (v : Value) : String := String.ofList (v.prettyChars 0)

end Value

end DeclVisibility.Json
