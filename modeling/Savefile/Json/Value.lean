/-! # JSON values

Numbers are kept as they are written. The members of an object are in order, and a key stands
there once.
-/
namespace Savefile

/-- A JSON value. -/
inductive Json where
  | null
  | bool (b : Bool)
  | number (text : String)
  | string (s : String)
  | array (items : List Json)
  | object (members : List (String × Json))
  deriving Inhabited

namespace Json

/-- The name of the host's representation of a value, as messages give it. -/
def representation : Json → String
  | .null => "<nil>"
  | .bool _ => "bool"
  | .number _ => "json.Number"
  | .string _ => "string"
  | .array _ => "[]interface \x7b\x7d"
  | .object _ => "map[string]interface \x7b\x7d"

end Json

/-- Puts a value under a key: in the key's place if it is there, else at the end. -/
def insertMember {α : Type} (key : String) (value : α) : List (String × α) → List (String × α)
  | [] => [(key, value)]
  | (k, v) :: rest =>
    if k == key then (k, value) :: rest else (k, v) :: insertMember key value rest

/-- The members that result when pairs are put in one after the other. -/
def collectMembers {α : Type} (pairs : List (String × α)) : List (String × α) :=
  pairs.foldl (fun members (key, value) => insertMember key value members) []

end Savefile
