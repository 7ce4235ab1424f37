import Savefile.Schema.Error
import Savefile.Schema.Field

/-! # Schemas

A schema has a byte order, declared record types and a root record. It is valid when every
composite field names a declared type, every field that keeps its width while absent has a
fixed one, and no type contains itself unconditionally.
-/
namespace Savefile

/-- A layout of records: byte order, declared types, root. -/
structure Schema where
  order : ByteOrder
  /-- The declared types in order. -/
  types : List RecordType
  root : RecordType

namespace Schema

/-- The name of the root record if none is given. -/
def defaultRootName : String := "root"

/-- The name under which expressions see the shared context. -/
def rootVariable : String := "_root"

def declared? (s : Schema) (name : String) : Option RecordType :=
  s.types.find? fun t => t.name == name

/-- A type by name, the root included. -/
def type? (s : Schema) (name : String) : Option RecordType :=
  match s.declared? name with
  | some t => some t
  | none => if s.root.name == name then some s.root else none

/-- The sum of the widths of fields that are always there, given the widths of types. -/
def fieldsWidth (width : TypeRef → Option Nat) : List Field → Option Nat
  | [] => some 0
  | f :: fs =>
    if f.repetition.isSome || (f.condition.map fun c => !c.advance).getD false then none
    else
      match width f.type, fieldsWidth width fs with
      | some w, some rest => some (w + rest)
      | _, _ => none

/-- The width of a type of which every instance has the same, if its records nest at most `depth`
levels deep. -/
def widthWithin (s : Schema) : Nat → TypeRef → Option Nat
  | 0, t => if t.kind.isComposite then none else some t.kind.scalarWidth
  | depth + 1, t =>
    if t.kind.isComposite then
      (s.declared? t.name).bind fun r => fieldsWidth (widthWithin s depth) r.fields
    else some t.kind.scalarWidth

/-- The width of a type of which every instance has the same. Records of a type that does not
contain itself nest no deeper than there are types. -/
def fixedWidth (s : Schema) (t : TypeRef) : Option Nat := s.widthWithin s.types.length t

def fieldPath (path : String) (i : Nat) : String := path ++ "[" ++ toString i ++ "]"

/-- What is wrong with a field by itself: an undeclared type, or no width to keep. -/
def fieldFault? (s : Schema) (path : String) (f : Field) : Option SchemaError :=
  if f.type.kind.isComposite && (s.declared? f.type.name).isNone then
    some ⟨path ++ ".type", .undeclaredType f.type.name⟩
  else if (f.condition.map (·.advance)).getD false && (s.fixedWidth f.type).isNone then
    some ⟨path ++ ".advance_if_false", .noFixedWidth f.type.name⟩
  else none

/-- The first fault among fields, counted from `i`. -/
def fieldsFault? (s : Schema) (path : String) : Nat → List Field → Option SchemaError
  | _, [] => none
  | i, f :: fs =>
    match s.fieldFault? (fieldPath path i) f with
    | some e => some e
    | none => fieldsFault? s path (i + 1) fs

def typePath (name : String) : String := "types." ++ name

/-- Follows fields that always hold another record, from the last type of the chain, which is
kept newest first, until the start is met again. Types on the chain are not entered twice, so
as many steps as there are types are enough. -/
def chainBack? (s : Schema) (start : String) : Nat → List String → Option (List String)
  | 0, _ => none
  | fuel + 1, chain =>
    (chain.head?.bind s.declared?).bind fun t =>
      t.fields.findSome? fun f =>
        if !f.isPlainComposite then none
        else if f.type.name == start then some (f.type.name :: chain)
        else if chain.contains f.type.name then none
        else chainBack? s start fuel (f.type.name :: chain)

/-- The types on the way from a type back to itself. -/
def selfChain? (s : Schema) (name : String) : Option (List String) :=
  (s.chainBack? name (s.types.length + 1) [name]).map List.reverse

/-- What is wrong with a schema: first the fields of the declared types, then those of the root,
then types that contain themselves. -/
def fault? (s : Schema) : Option SchemaError :=
  match s.types.findSome? fun t => s.fieldsFault? (typePath t.name) 0 t.fields with
  | some e => some e
  | none =>
    match s.fieldsFault? "items" 0 s.root.fields with
    | some e => some e
    | none =>
      s.types.findSome? fun t =>
        (s.selfChain? t.name).map fun chain => ⟨typePath t.name, .containsItself chain⟩

/-- The first name that stands in the list before, with its place, counted from `i`. -/
def firstRepeat? (seen : List String) (i : Nat) : List String → Option (Nat × String)
  | [] => none
  | n :: ns => if seen.contains n then some (i, n) else firstRepeat? (n :: seen) (i + 1) ns

/-- Puts a schema together and checks it. An empty root name stands for the usual one. -/
def build (order : ByteOrder) (rootName : String) (types : List RecordType)
    (items : List Field) : Except SchemaError Schema :=
  let rootName := if rootName.isEmpty then defaultRootName else rootName
  match firstRepeat? [] 0 (types.map (·.name)) with
  | some (_, name) => .error ⟨typePath name, .duplicateType⟩
  | none =>
    if types.any fun t => t.name == rootName then .error ⟨"meta.id", .rootNameClash rootName⟩
    else
      let s : Schema := ⟨order, types, ⟨rootName, items⟩⟩
      match s.fault? with
      | some e => .error e
      | none => .ok s

end Schema

end Savefile
