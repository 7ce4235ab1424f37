import Savefile.Json.Value
import Savefile.Record.Scalar
import Savefile.Schema.Basic

/-! # Values and records

A record holds one value per field of its type: a scalar, another record, a list, or nothing.
Two records are equal when their types have the same name and their values are equal; floats
compare by their bits.
-/
namespace Savefile

/-- The value of a field. -/
inductive Value where
  | null
  | scalar (s : Scalar)
  | list (items : List Value)
  | record (type : RecordType) (slots : List Value)
  /-- A value that no field holds, with its representation and its text. -/
  | foreign (representation text : String)
  deriving Inhabited

/-- A record: its type and one value per field. -/
structure Record where
  type : RecordType
  slots : List Value

namespace Value

def isNull : Value → Bool
  | .null => true
  | _ => false

mutual

/-- The value as expressions see it: a record is a collection of its fields. -/
def toDatum : Value → Datum
  | .null => .null
  | .scalar s => s.toDatum
  | .list items => .list .variable (itemData items)
  | .record type slots => .object (collectMembers ((type.fields.map (·.id)).zip (itemData slots)))
  | .foreign _ _ => .null

/-- Several values as expressions see them. -/
def itemData : List Value → List Datum
  | [] => []
  | v :: vs => v.toDatum :: itemData vs

end

mutual

def equal : Value → Value → Bool
  | .null, .null => true
  | .scalar a, .scalar b => a == b
  | .list as, .list bs => equalItems as bs
  | .record t as, .record u bs => t.name == u.name && equalItems as bs
  | .foreign r a, .foreign s b => r == s && a == b
  | _, _ => false

/-- Whether two lists have equal values in the same places. -/
def equalItems : List Value → List Value → Bool
  | [], [] => true
  | a :: as, b :: bs => a.equal b && equalItems as bs
  | _, _ => false

end

end Value

namespace Record

def toValue (r : Record) : Value := .record r.type r.slots

def equal (r o : Record) : Bool :=
  r.type.name == o.type.name && Value.equalItems r.slots o.slots

/-- The value of the field with the given identifier. -/
def get? (r : Record) (id : String) : Option Value :=
  (r.type.fieldIndex? id).bind fun i => r.slots[i]?

end Record

end Savefile
