import Savefile.Text.Quoted
import Savefile.Text.Space

/-! # Notes

What reading and writing report as they go: a note for each field and one for the whole record.
A note is a line of keys and values; a value is quoted if it is empty or could be taken apart.
-/
namespace Savefile

/-- Something that was read or written. -/
inductive Note where
  | decodedField (type field : String) (offset : Int) (present : Bool)
  | decodedRecord (type : String) (bytes : Int)
  | encodedField (type field : String) (finish : Nat)
  | encodedRecord (type : String) (bytes : Nat)
  | decodedSave (version bytes trailing : Nat)
  deriving DecidableEq

namespace Note

/-- Whether a character makes quotes necessary. -/
def needsQuotes (c : Char) : Bool :=
  if c.toNat < 0x80 then
    c.toNat ≤ 0x20 || c == '=' || c == '"'
  else c == '�' || Text.isSpace c || !Text.isPrintable c

def value (s : String) : String :=
  if s.isEmpty || s.toList.any needsQuotes then Text.quoted s else s

/-- A key with its value. -/
def entry (key text : String) : String := key ++ "=" ++ value text

def lineOf (level message : String) (entries : List (String × String)) : String :=
  " ".intercalate
    (entry "level" level :: entry "msg" message :: entries.map fun (key, text) => entry key text)

def line : Note → String
  | .decodedField type field offset present =>
    lineOf "DEBUG" "decoded field"
      [("type", type), ("field", field), ("offset", toString offset), ("present", toString present)]
  | .decodedRecord type bytes =>
    lineOf "DEBUG" "decoded record" [("type", type), ("bytes", toString bytes)]
  | .encodedField type field finish =>
    lineOf "DEBUG" "encoded field" [("type", type), ("field", field), ("end", toString finish)]
  | .encodedRecord type bytes =>
    lineOf "DEBUG" "encoded record" [("type", type), ("bytes", toString bytes)]
  | .decodedSave version bytes trailing =>
    lineOf "DEBUG" "decoded save"
      [("version", toString version), ("bytes", toString bytes), ("trailing", toString trailing)]

end Note

end Savefile
