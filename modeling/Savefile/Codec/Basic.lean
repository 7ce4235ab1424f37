import Savefile.Schema.Basic

/-! # Codecs

A codec is a checked schema together with the way counts are treated on writing: a strict one
wants each list to have the length its count expression gives, a lenient one takes any length.
-/
namespace Savefile

/-- How a codec works. -/
structure CodecOptions where
  /-- Whether lists may have any length on writing. -/
  lenient : Bool
  /-- The name of the journal that gets the notes of reading and writing, if one does. -/
  journal : Option String

/-- Counts are checked, and nobody reads notes. -/
def CodecOptions.strict : CodecOptions := ⟨false, none⟩

/-- Reads and writes the records of a schema. -/
structure Codec where
  schema : Schema
  options : CodecOptions

/-- Why there is no codec for a schema. -/
inductive CompileError where
  | noSchema
  | malformed (e : SchemaError)
  | undeclaredType (type id name : String)
  | noFixedWidth (type id name : String)
  deriving DecidableEq

/-- The text of the error. -/
def CompileError.message : CompileError → String
  | .noSchema => "codec: nil schema"
  | .malformed e => e.message
  | .undeclaredType type id name =>
    "codec: " ++ type ++ "." ++ id ++ ": undeclared type " ++ Text.quoted name
  | .noFixedWidth type id name =>
    "codec: " ++ type ++ "." ++ id ++ ": type " ++ Text.quoted name ++ " has no fixed width"

namespace Codec

def isRoot (c : Codec) (name : String) : Bool := name == c.schema.root.name

/-- The record type with a name, the root before declared types. -/
def type? (c : Codec) (name : String) : Option RecordType :=
  if c.isRoot name then some c.schema.root else c.schema.declared? name

/-- How many leading fields of the root form the shared context. -/
def contextBoundary (c : Codec) : Nat := c.schema.root.contextBoundary

/-- After how many fields a record of the type shares its leading fields, if it does. -/
def sharesAfter? (c : Codec) (name : String) : Option Nat :=
  if c.isRoot name then some c.contextBoundary else none

/-- The number of bytes that an absent field of a type keeps. -/
def keptWidth (c : Codec) (t : TypeRef) : Nat := (c.schema.fixedWidth t).getD 0

/-- What keeps the fields of a type from being read and written. -/
def fieldFault? (s : Schema) (type : String) (f : Field) : Option CompileError :=
  if f.type.kind.isComposite && (s.declared? f.type.name).isNone then
    some (.undeclaredType type f.id f.type.name)
  else if (f.condition.map (·.advance)).getD false && (s.fixedWidth f.type).isNone then
    some (.noFixedWidth type f.id f.type.name)
  else none

/-- What keeps the records of a schema from being read and written. -/
def layoutFault? (s : Schema) : Option CompileError :=
  (s.types ++ [s.root]).findSome? fun t => t.fields.findSome? (fieldFault? s t.name)

/-- The codec of a schema, if there is a schema and it has no fault. -/
def compile (schema : Option Schema) (options : CodecOptions) : Except CompileError Codec :=
  match schema with
  | none => .error .noSchema
  | some s =>
    match s.fault? with
    | some e => .error (.malformed e)
    | none =>
      match layoutFault? s with
      | some e => .error e
      | none => .ok ⟨s, options⟩

end Codec

end Savefile
