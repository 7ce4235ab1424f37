import Savefile.Json.Token
import Savefile.Text.Utf8

/-! # Reading JSON

The first value of a text is read, and what follows it is not looked at. Of several members with
one key the last counts.
-/
namespace Savefile.Json

/-- An array or object that is not complete. -/
inductive Level where
  /-- The items so far, newest first. -/
  | array (items : List Json)
  /-- The members so far, and the key of the next. -/
  | object (members : List (String × Json)) (key : String)

/-- What may come next. -/
inductive Expected where
  | value
  /-- The first item of an array, or its end. -/
  | firstItem
  /-- The first key of an object, or its end. -/
  | firstKey
  | key
  | colon
  /-- A comma, or the end of the innermost level. -/
  | more

/-- How deep arrays and objects may nest. -/
def depthLimit : Nat := 10000

/-- Puts a complete value into the innermost level. -/
def Level.add (j : Json) : Level → Level
  | .array items => .array (j :: items)
  | .object members key => .object (insertMember key j members) key

/-- The value of a complete level. -/
def Level.close : Level → Json
  | .array items => .array items.reverse
  | .object members _ => .object members

/-- Whether a closing mark fits a level. -/
def Level.closedBy : Token → Level → Bool
  | .closeArray, .array _ => true
  | .closeObject, .object _ _ => true
  | _, _ => false

/-- Reads a value from tokens, given the levels that are open, innermost first. -/
def readFrom : Expected → List Level → List Token → Option Json
  | _, _, [] => none
  | expected, levels, t :: ts =>
    match expected, t, levels with
    | .value, .leaf j, levels | .firstItem, .leaf j, levels =>
      match levels with
      | [] => some j
      | level :: outer => readFrom .more (level.add j :: outer) ts
    | .value, .openArray, levels | .firstItem, .openArray, levels =>
      if levels.length < depthLimit then readFrom .firstItem (.array [] :: levels) ts else none
    | .value, .openObject, levels | .firstItem, .openObject, levels =>
      if levels.length < depthLimit then readFrom .firstKey (.object [] "" :: levels) ts else none
    | .firstKey, .leaf (.string k), .object members _ :: outer
    | .key, .leaf (.string k), .object members _ :: outer =>
      readFrom .colon (.object members k :: outer) ts
    | .colon, .colon, levels => readFrom .value levels ts
    | .more, .comma, .array items :: outer => readFrom .value (.array items :: outer) ts
    | .more, .comma, .object members key :: outer =>
      readFrom .key (.object members key :: outer) ts
    | .firstItem, t, level :: outer | .firstKey, t, level :: outer | .more, t, level :: outer =>
      if level.closedBy t then
        match outer with
        | [] => some level.close
        | next :: rest => readFrom .more (next.add level.close :: rest) ts
      else none
    | _, _, _ => none

/-- The first value of a text. -/
def parse? (cs : List Char) : Option Json := readFrom .value [] (tokens cs)

/-- The first value of some bytes; whatever is not UTF-8 is replaced. -/
def parseBytes? (bytes : List UInt8) : Option Json := parse? (Text.decodeLossy bytes)

end Savefile.Json
