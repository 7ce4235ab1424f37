import Savefile.Bytes.Hex
import Savefile.Checksum
import Savefile.Envelope

/-! # Formats of save data

Records are kept in an envelope, as they are, or in hexadecimal, each with or without a checksum.
Only an envelope has a version.
-/
namespace Savefile.Command

/-- A format of save data. -/
inductive Format where
  | envelope
  | raw
  | hex
  deriving DecidableEq

def Format.ofName? : String → Option Format
  | "envelope" => some .envelope
  | "raw" => some .raw
  | "hex" => some .hex
  | _ => none

/-- How save data is kept. -/
structure Packing where
  format : Format
  checksum : Bool

/-- Why save data is not taken apart or put together. -/
inductive PackingError where
  | unknownFormat (name : String)
  /-- An envelope that cannot be opened. -/
  | envelope (e : Envelope.Error)
  | hex (e : Hex.Error)
  | checksum (e : Checksum.Error)
  /-- An envelope that cannot be made. -/
  | wrapping (e : Envelope.Error)
  deriving DecidableEq

/-- The text of the error. -/
def PackingError.message : PackingError → String
  | .unknownFormat name => "unknown --format " ++ Text.quoted name
  | .envelope e => "reading save data: " ++ e.message
  | .hex e => "reading save data: " ++ e.message
  | .checksum e => e.message
  | .wrapping e => e.message

namespace Packing

/-- The packing that a name and a choice stand for. -/
def ofSettings (format : String) (checksum : Bool) : Except PackingError Packing :=
  match Format.ofName? format with
  | some f => .ok ⟨f, checksum⟩
  | none => .error (.unknownFormat format)

/-- Bytes without the white space between them. -/
def withoutSpace (data : List UInt8) : List UInt8 :=
  ((Text.split data).filter fun (c, _) => !Text.isSpace c).flatMap Prod.snd

/-- The bytes and the version of data in a format. -/
def openData (format : Format) (data : List UInt8) : Except PackingError (List UInt8 × Nat) :=
  match format with
  | .envelope => (Envelope.unwrapBytes data).mapError .envelope
  | .raw => .ok (data, 0)
  | .hex =>
    match Hex.decode (withoutSpace data) with
    | .ok bytes => .ok (bytes, 0)
    | .error e => .error (.hex e)

/-- The record's bytes and the version of some data. -/
def unpack (p : Packing) (data : List UInt8) : Except PackingError (List UInt8 × Nat) :=
  (openData p.format data).bind fun (bytes, version) =>
    if p.checksum then
      match Checksum.split bytes with
      | .ok bytes => .ok (bytes, version)
      | .error e => .error (.checksum e)
    else .ok (bytes, version)

def lineBytes (cs : List Char) : List UInt8 := Text.encode (cs ++ ['\n'])

/-- Data with a record's bytes and a version. -/
def pack (p : Packing) (bytes : List UInt8) (version : Int) : Except PackingError (List UInt8) :=
  let bytes := if p.checksum then Checksum.append bytes else bytes
  match p.format with
  | .envelope =>
    match Envelope.wrap bytes version with
    | .ok line => .ok (lineBytes line)
    | .error e => .error (.wrapping e)
  | .raw => .ok bytes
  | .hex => .ok (lineBytes (Hex.encode bytes))

end Packing

end Savefile.Command
