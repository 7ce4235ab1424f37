import Savefile.Bytes.Base64
import Savefile.Deflate.Zlib
import Savefile.Text.Space
import Savefile.Text.Utf8

/-! # Envelopes

A save is kept as a line of text: a version of two digits and, between marks, the bytes, which are
masked by a key, compressed, and written in base 64. White space around the line is ignored.
-/
namespace Savefile.Envelope

/-- Why a text is no envelope, or there is none for some bytes. -/
inductive Error where
  | unknownFormat
  | invalidBase64
  | compression (e : Deflate.StreamError)
  | versionOutOfRange (version : Int)
  deriving DecidableEq

/-- The text of the error. -/
def Error.message : Error → String
  | .unknownFormat => "save string not in a known format"
  | .invalidBase64 => "illegal base64 data: save data not valid base64"
  | .compression e => e.message ++ ": save data compression error"
  | .versionOutOfRange version => "save version " ++ toString version ++ " out of range 0..99"

/-- The key that masks bytes. -/
def key : List UInt8 := Text.encode "therealmisalie".toList

/-- Masks bytes with what is left of a repeated key. Masking twice with the same key changes
nothing. -/
def maskWith : List UInt8 → List UInt8 → List UInt8
  | _, [] => []
  | k :: ks, b :: bs => (b ^^^ k) :: maskWith ks bs
  | [], b :: bs =>
    match key with
    | [] => b :: bs
    | k :: ks => (b ^^^ k) :: maskWith ks bs

/-- Masks bytes with the repeated key. -/
def mask (bytes : List UInt8) : List UInt8 := maskWith key bytes

def lastVersion : Nat := 99

/-- A line of text with a version and some characters between the marks. -/
def line (version : Nat) (body : List Char) : List Char :=
  '$' :: Nat.digitChar (version / 10) :: Nat.digitChar (version % 10) :: 's' :: (body ++ ['$', 'e'])

/-- The version of a line and the characters between its marks. -/
def parts? (cs : List Char) : Option (Nat × List Char) :=
  match cs with
  | '$' :: a :: b :: 's' :: rest =>
    let body := rest.take (rest.length - 2)
    if a.isDigit && b.isDigit && rest.drop (rest.length - 2) == ['$', 'e'] && !body.contains '\n'
    then some ((a.toNat - '0'.toNat) * 10 + (b.toNat - '0'.toNat), body)
    else none
  | _ => none

/-- The version and the expanded bytes of an envelope, still masked. -/
def expand (text : List Char) : Except Error (List UInt8 × Nat) :=
  match parts? (Text.trimChars text) with
  | none => .error .unknownFormat
  | some (version, body) =>
    match Base64.decode? body with
    | none => .error .invalidBase64
    | some stream =>
      match Deflate.ofStream stream with
      | .error e => .error (.compression e)
      | .ok masked => .ok (masked, version)

/-- The bytes and the version of an envelope. -/
def unwrap (text : List Char) : Except Error (List UInt8 × Nat) :=
  (expand text).map fun (masked, version) => (mask masked, version)

/-- The bytes and the version of an envelope given by its bytes. -/
def unwrapBytes (text : List UInt8) : Except Error (List UInt8 × Nat) :=
  unwrap (Text.decodeLossy text)

def wrap (bytes : List UInt8) (version : Int) : Except Error (List Char) :=
  if version < 0 ∨ lastVersion < version then .error (.versionOutOfRange version)
  else .ok (line version.toNat (Base64.encode (Deflate.toStream (mask bytes))))

end Savefile.Envelope
