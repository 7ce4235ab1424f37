import Savefile.Record.Check

/-! # Stores of records

Several records can share a nested record: a change to it shows in all of them. A store keeps each
record once under a number, and the fields of others refer to it by that number.
-/
namespace Savefile

/-- The value of a field in a store. -/
inductive Slot where
  | null
  | scalar (s : Scalar)
  | list (items : List Slot)
  | record (number : Nat)
  | foreign (representation text : String)
  deriving Inhabited

/-- A record in a store. -/
structure StoredRecord where
  type : RecordType
  slots : List Slot

/-- Records by number. -/
structure Store where
  records : Array StoredRecord

namespace Store

def empty : Store := ⟨#[]⟩

mutual

/-- Keeps the records of a value, each as one of its own. -/
def addValue (st : Store) : Value → Slot × Store
  | .null => (.null, st)
  | .scalar s => (.scalar s, st)
  | .list items =>
    let (slots, st) := addValues st items
    (.list slots, st)
  | .record type values =>
    let (slots, st) := addValues st values
    (.record st.records.size, ⟨st.records.push ⟨type, slots⟩⟩)
  | .foreign representation text => (.foreign representation text, st)

/-- Keeps the records of several values. -/
def addValues (st : Store) : List Value → List Slot × Store
  | [] => ([], st)
  | v :: vs =>
    let (slot, st) := addValue st v
    let (slots, st) := addValues st vs
    (slot :: slots, st)

end

/-- Keeps a record. -/
def add (st : Store) (r : Record) : Nat × Store :=
  let (slots, st) := st.addValues r.slots
  (st.records.size, ⟨st.records.push ⟨r.type, slots⟩⟩)

/-- A value with the records that it refers to in their places, given those by number. -/
def valueWith (record : Nat → Value) : Slot → Value
  | .null => .null
  | .scalar s => .scalar s
  | .list items => .list (valuesWith record items)
  | .record number => record number
  | .foreign representation text => .foreign representation text
where
  /-- Several values, likewise. -/
  valuesWith (record : Nat → Value) : List Slot → List Value
    | [] => []
    | slot :: slots => valueWith record slot :: valuesWith record slots

/-- The record under a number as a value, if its records nest at most `depth` levels deep. -/
def viewWithin (st : Store) : Nat → Nat → Value
  | 0, _ => .null
  | depth + 1, number =>
    match st.records[number]? with
    | none => .null
    | some r => .record r.type (r.slots.map (valueWith (viewWithin st depth)))

/-- A value with the records that it refers to in their places. Records that do not hold
themselves nest no deeper than there are records. -/
def value (st : Store) (slot : Slot) : Value := valueWith (st.viewWithin st.records.size) slot

def get? (st : Store) (number : Nat) : Option Record :=
  st.records[number]?.map fun r => ⟨r.type, r.slots.map st.value⟩

/-- The value of a field of the record under a number. -/
def field? (st : Store) (number : Nat) (id : String) : Option Slot :=
  st.records[number]?.bind fun r => (r.type.fieldIndex? id).bind fun i => r.slots[i]?

/-- Changes a field of the record under a number. -/
def set (st : Store) (number : Nat) (id : String) (slot : Slot) : Except SetError Store :=
  match st.records[number]? with
  | none => .ok st
  | some r =>
    (Record.checkSet r.type id (st.value slot)).map fun i =>
      ⟨st.records.setIfInBounds number { r with slots := r.slots.set i slot }⟩

end Store

end Savefile
