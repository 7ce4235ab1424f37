import Savefile.Codec.Basic
import Savefile.Record.Value

/-! # Zero records

A new record holds zeros: conditional fields are absent, lists empty, and nested records new.
-/
namespace Savefile

/-- Why there is no new record. -/
inductive NewError where
  | unknownType (name : String)
  | containsItself (name : String)
  deriving DecidableEq

/-- The text of the error. -/
def NewError.message : NewError → String
  | .unknownType name => "codec: unknown type " ++ Text.quoted name
  | .containsItself name => "codec: type " ++ name ++ " contains itself unconditionally"

namespace Codec

/-- The zero of a scalar kind; a kind that is none has no value. -/
def zeroScalar : TypeKind → Value
  | .primitive p => .scalar (.zero p)
  | _ => .null

/-- The values of new fields, given new records by type name. -/
def zeroSlots (nested : String → Except NewError Record) : List Field → Except NewError (List Value)
  | [] => .ok []
  | f :: fs => do
    let v ←
      match f.shape with
      | .primitive => pure (zeroScalar f.type.kind)
      | .composite => Record.toValue <$> nested f.type.name
      | .repeated _ => pure (.list [])
      | _ => pure .null
    let vs ← zeroSlots nested fs
    pure (v :: vs)

/-- A new record of the type with a name, inside new records of the given types. A type inside
itself is refused, so as many levels as there are types are enough. -/
def zeroWithin (c : Codec) : Nat → List String → String → Except NewError Record
  | 0, _, name => .error (.containsItself name)
  | depth + 1, outer, name =>
    match c.type? name with
    | none => .error (.unknownType name)
    | some t =>
      if outer.contains t.name then .error (.containsItself t.name)
      else (zeroSlots (zeroWithin c depth (t.name :: outer)) t.fields).map fun slots => ⟨t, slots⟩

def newRecord (c : Codec) (name : String) : Except NewError Record :=
  c.zeroWithin (c.schema.types.length + 2) [] name

end Codec

end Savefile
