import Savefile.Codec.Decode
import Savefile.Schema.Document

/-! # Registries

A registry keeps a codec for each of several names and, beside it, counts how often a codec was
installed under each. A document that gives no codec changes nothing.
-/
namespace Savefile

/-- Codecs by name, all made with the same options from documents, and the counter of each name. -/
structure Registry where
  options : CodecOptions
  codecs : List (String × Codec)
  counters : List (String × UInt64)

/-- A document under a name that gives no codec. -/
structure RegisterError where
  name : String
  cause : CompileError
  deriving DecidableEq

/-- The text of the error. -/
def RegisterError.message (e : RegisterError) : String :=
  "registering " ++ e.name ++ ": " ++ e.cause.message

/-- Why a registry does not read a record. -/
inductive LookupError where
  | notRegistered (name : String)
  | decode (e : DecodeError)

def notRegisteredText (name : String) : String := "codec " ++ Text.quoted name ++ " not registered"

namespace Registry

def empty (options : CodecOptions) : Registry := ⟨options, [], []⟩

def get? (r : Registry) (name : String) : Option Codec := r.codecs.lookup name

/-- The counter of a name, zero if nothing was installed under it. -/
def counter (r : Registry) (name : String) : UInt64 := (r.counters.lookup name).getD 0

/-- How often a codec was installed under a name. -/
def version (r : Registry) (name : String) : Nat := (r.counter name).toNat

def install (r : Registry) (name : String) (c : Codec) : Registry :=
  { r with
    codecs := insertMember name c r.codecs
    counters := insertMember name (r.counter name + 1) r.counters }

def register (r : Registry) (name : String) (document : List UInt8) :
    Except RegisterError Registry :=
  match Schema.parse document with
  | .error e => .error ⟨name, .malformed e⟩
  | .ok s =>
    match Codec.compile (some s) r.options with
    | .error e => .error ⟨name, e⟩
    | .ok c => .ok (r.install name c)

/-- Reads a root record with the codec under a name. -/
def decode (r : Registry) (name : String) (data : List UInt8) :
    Except (Stop LookupError) Record :=
  match r.get? name with
  | none => .error (.error (.notRegistered name))
  | some c => (c.decode data).mapError (.map .decode)

end Registry

/-- A codec that can be exchanged, with a counter of the codecs it has been. -/
structure Holder where
  codec : Codec
  counter : UInt64

namespace Holder

def hold (c : Codec) : Holder := ⟨c, 1⟩

def swap (h : Holder) (c : Codec) : Holder := ⟨c, h.counter + 1⟩

/-- The number of codecs it has been. -/
def version (h : Holder) : Nat := h.counter.toNat

end Holder

end Savefile
