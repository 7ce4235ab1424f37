import Savefile.Json.Printer
import Savefile.Record.Value

/-! # Records as JSON

A record is an object of its fields in order, an absent value is null, and a float that is no
finite number is a string with its name. A record as text is its type's name and its JSON.
-/
namespace Savefile

def Scalar.toJson (s : Scalar) : Json :=
  match s with
  | .bool b => .bool b
  | .f32 b =>
    if Decimal.BinaryFormat.single.infinity ≤ b.toNat % Decimal.BinaryFormat.single.signBit then
      .string (s.write Decimal.jsonLayout)
    else .number (s.write Decimal.jsonLayout)
  | .f64 b =>
    if Decimal.BinaryFormat.double.infinity ≤ b.toNat % Decimal.BinaryFormat.double.signBit then
      .string (s.write Decimal.jsonLayout)
    else .number (s.write Decimal.jsonLayout)
  | s => .number (s.write Decimal.jsonLayout)

namespace Value

mutual

def toJson : Value → Json
  | .null => .null
  | .scalar s => s.toJson
  | .list items => .array (itemsJson items)
  | .record type slots => .object (collectMembers ((type.fields.map (·.id)).zip (itemsJson slots)))
  | .foreign _ text => .string text

def itemsJson : List Value → List Json
  | [] => []
  | v :: vs => v.toJson :: itemsJson vs

end

mutual

def shown : Value → String
  | .null => "<nil>"
  | .scalar s => s.write Decimal.messageLayout
  | .list items => "[" ++ " ".intercalate (shownItems items) ++ "]"
  | .record type slots => type.name ++ (Value.record type slots).toJson.compact
  | .foreign _ text => text

/-- Several values as messages show them. -/
def shownItems : List Value → List String
  | [] => []
  | v :: vs => v.shown :: shownItems vs

end

/-- The name of the host's representation of a value, as messages give it. -/
def representation : Value → String
  | .null => "<nil>"
  | .scalar s => s.representation
  | .list _ => "[]interface \x7b\x7d"
  | .record _ _ => "*codec.Record"
  | .foreign name _ => name

end Value

namespace Record

def toJson (r : Record) : Json := r.toValue.toJson

/-- A record as text: its type's name and its JSON. -/
def describe (r : Record) : String := r.type.name ++ r.toJson.compact

end Record

end Savefile
