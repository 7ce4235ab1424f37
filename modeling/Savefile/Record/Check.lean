import Savefile.Record.Json

/-! # Checked changes

A field takes a new value only if the value has the field's shape. The check looks at the names
of nested records' types, not inside them.
-/
namespace Savefile

/-- Why a value does not fit a field. -/
inductive Misfit where
  | wrongScalar (value : Value) (wanted : TypeKind)
  | notList (value : Value)
  | notRecord (value : Value) (wanted : String)
  | wrongRecord (found wanted : String)
  /-- An element that does not fit. -/
  | element (index : Nat) (cause : Misfit)

/-- A value with its representation. -/
def Value.described (v : Value) : String := v.shown ++ " (" ++ v.representation ++ ")"

/-- The text of a misfit. -/
def Misfit.message : Misfit → String
  | .wrongScalar v wanted => v.described ++ " is not a " ++ wanted.scalarName
  | .notList v => v.described ++ " is not a list"
  | .notRecord v wanted => v.described ++ " is not a " ++ wanted ++ " record"
  | .wrongRecord found wanted => "record of type " ++ found ++ ", want " ++ wanted
  | .element i cause => "[" ++ toString i ++ "]: " ++ cause.message

namespace Value

def isScalarOf (kind : TypeKind) : Value → Bool
  | .scalar s => kind == .primitive s.kind
  | _ => false

/-- What keeps a value from being of a field's type, repetition and condition aside. -/
def baseMisfit? (type : TypeRef) (v : Value) : Option Misfit :=
  if type.kind.isComposite then
    match v with
    | .record t _ =>
      if t.name == type.name then none else some (.wrongRecord t.name type.name)
    | v => some (.notRecord v type.name)
  else if v.isScalarOf type.kind then none
  else some (.wrongScalar v type.kind)

/-- What keeps a value from being a single value of a field, repetition aside. -/
def elementMisfit? (f : Field) (v : Value) : Option Misfit :=
  if f.condition.isSome && v.isNull then none else v.baseMisfit? f.type

/-- The first misfit among elements, counted from `i`. -/
def itemsMisfit? (f : Field) : Nat → List Value → Option Misfit
  | _, [] => none
  | i, v :: vs =>
    match v.elementMisfit? f with
    | some m => some (.element i m)
    | none => itemsMisfit? f (i + 1) vs

/-- What keeps a value from having a field's shape. -/
def misfit? (f : Field) (v : Value) : Option Misfit :=
  if f.repetition.isSome then
    match v with
    | .list items => itemsMisfit? f 0 items
    | v => some (.notList v)
  else v.elementMisfit? f

end Value

/-- Why a field was not changed. -/
inductive SetError where
  | noField (type id : String)
  | misfit (type id : String) (cause : Misfit)

/-- The text of the error. -/
def SetError.message : SetError → String
  | .noField type id => type ++ " has no field " ++ Text.quoted id
  | .misfit type id cause => type ++ "." ++ id ++ ": " ++ cause.message

namespace Record

/-- The place of a field that may take the value. -/
def checkSet (type : RecordType) (id : String) (v : Value) : Except SetError Nat :=
  match type.fieldIndex? id with
  | none => .error (.noField type.name id)
  | some i =>
    match type.fields[i]? with
    | none => .error (.noField type.name id)
    | some f =>
      match v.misfit? f with
      | some cause => .error (.misfit type.name id cause)
      | none => .ok i

/-- The record with another value of a field. -/
def set (r : Record) (id : String) (v : Value) : Except SetError Record :=
  (checkSet r.type id v).map fun i => { r with slots := r.slots.set i v }

end Record

end Savefile
