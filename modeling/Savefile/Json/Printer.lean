import Savefile.Json.Value
import Savefile.Text.Quoted

/-! # Writing JSON

Either without any blanks, or with one member or item on a line, indented by two spaces a level.
Characters that could end a script or a line inside a page are escaped.
-/
namespace Savefile.Json

/-- One character inside a JSON string. -/
def escapeChar (c : Char) : List Char :=
  if c == '"' || c == '\\' then ['\\', c]
  else if c == '\n' then ['\\', 'n']
  else if c == '\r' then ['\\', 'r']
  else if c == '\t' then ['\\', 't']
  else if c.toNat < 0x20 || c == '<' || c == '>' || c == '&' || c == '\u2028' || c == '\u2029' then
    '\\' :: 'u' :: Text.hexPadded 4 c.toNat
  else [c]

def quote (s : String) : List Char := '"' :: s.toList.flatMap escapeChar ++ ['"']

mutual

/-- A value without blanks. -/
def compactChars : Json → List Char
  | .null => "null".toList
  | .bool b => (toString b).toList
  | .number text => text.toList
  | .string s => quote s
  | .array items => '[' :: compactItems items ++ [']']
  | .object members => '\x7b' :: compactMembers members ++ ['\x7d']

/-- Items with commas between. -/
def compactItems : List Json → List Char
  | [] => []
  | [j] => j.compactChars
  | j :: js => j.compactChars ++ ',' :: compactItems js

/-- Members with commas between. -/
def compactMembers : List (String × Json) → List Char
  | [] => []
  | [(k, j)] => quote k ++ ':' :: j.compactChars
  | (k, j) :: rest => quote k ++ ':' :: (j.compactChars ++ ',' :: compactMembers rest)

end

/-- A value as text without blanks. -/
def compact (j : Json) : String := String.ofList j.compactChars

/-- A line end and the indentation of a level. -/
def newLine (level : Nat) : List Char := '\n' :: List.replicate (2 * level) ' '

mutual

/-- A value over several lines, whose first line starts at the given level. -/
def indentedChars (level : Nat) : Json → List Char
  | .array (j :: js) =>
    '[' :: newLine (level + 1) ++ j.indentedChars (level + 1) ++ indentedItems (level + 1) js
      ++ newLine level ++ [']']
  | .object ((k, j) :: rest) =>
    '\x7b' :: newLine (level + 1) ++ quote k ++ ": ".toList ++ j.indentedChars (level + 1)
      ++ indentedMembers (level + 1) rest ++ newLine level ++ ['\x7d']
  | .null => "null".toList
  | .bool b => (toString b).toList
  | .number text => text.toList
  | .string s => quote s
  | .array [] => "[]".toList
  | .object [] => "\x7b\x7d".toList

/-- The items after the first. -/
def indentedItems (level : Nat) : List Json → List Char
  | [] => []
  | j :: js => ',' :: newLine level ++ j.indentedChars level ++ indentedItems level js

/-- The members after the first. -/
def indentedMembers (level : Nat) : List (String × Json) → List Char
  | [] => []
  | (k, j) :: rest =>
    ',' :: newLine level ++ quote k ++ ": ".toList ++ j.indentedChars level
      ++ indentedMembers level rest

end

/-- A value as text over several lines. -/
def indented (j : Json) : String := String.ofList (j.indentedChars 0)

end Savefile.Json
