import Savefile.Codec.Basic
import Savefile.Decimal.Reading
import Savefile.Json.Reader
import Savefile.Record.Value

/-! # Records from JSON

An object becomes a record if its keys are field identifiers, every field that is not conditional
is there, and each value matches its field. Whole numbers are taken from their digits, so none is
altered; floats are rounded once to their own width.
-/
namespace Savefile

/-- What is wrong with a JSON value. -/
inductive JsonProblem where
  | notObject (type found : String)
  | unknownField (key : String)
  | missing
  | notArray (found : String)
  | notBool (found : String)
  | notNumber (primitive found : String)
  /-- A string that names no float. -/
  | notFloatName (primitive text : String)
  | badNumber (primitive reader text : String) (cause : Decimal.NumberError)
  | unsupportedPrimitive (name : String)
  deriving DecidableEq

/-- The text of a problem. -/
def JsonProblem.message : JsonProblem → String
  | .notObject type found => "expected object for " ++ type ++ ", got " ++ found
  | .unknownField key => "unknown field " ++ Text.quoted key
  | .missing => "missing"
  | .notArray found => "expected array, got " ++ found
  | .notBool found => "expected bool, got " ++ found
  | .notNumber primitive found => "expected number for " ++ primitive ++ ", got " ++ found
  | .notFloatName primitive text =>
    "expected number for " ++ primitive ++ ", got string " ++ Text.quoted text
  | .badNumber primitive reader text cause =>
    primitive ++ ": strconv." ++ reader ++ ": parsing " ++ Text.quoted text ++ ": " ++ cause.message
  | .unsupportedPrimitive name => "unsupported primitive " ++ name

/-- Why JSON gives no record. -/
inductive FromJsonError where
  | syntaxError (type : String)
  /-- A problem with the value at a path. -/
  | located (path : String) (problem : JsonProblem)
  deriving DecidableEq

/-- The text of the error. -/
def FromJsonError.message : FromJsonError → String
  | .syntaxError type => "parsing " ++ type ++ " JSON"
  | .located path problem => path ++ ": " ++ problem.message

namespace Primitive

/-- Whether a kind is a whole number without a sign. -/
def isUnsigned : Primitive → Bool
  | .u8 | .u16 | .u32 | .u64 => true
  | _ => false

/-- Whether a kind is a whole number with a sign. -/
def isSigned : Primitive → Bool
  | .i8 | .i16 | .i32 | .i64 => true
  | _ => false

def floatFormat? : Primitive → Option Decimal.BinaryFormat
  | .f32 => some .single
  | .f64 => some .double
  | _ => none

/-- The name of the reader of a kind's numbers, as messages give it. -/
def readerName (p : Primitive) : String :=
  if p.isUnsigned then "ParseUint" else if p.isSigned then "ParseInt" else "ParseFloat"

def readNumber (p : Primitive) (text : String) : Except Decimal.NumberError Scalar :=
  let bits := p.width * 8
  if p.isUnsigned then (Decimal.readUnsigned bits text.toList).map (Scalar.ofBits p)
  else if p.isSigned then
    (Decimal.readSigned bits text.toList).map fun n => .ofBits p (n % (Nat.pow 2 bits : Int)).toNat
  else
    match p.floatFormat? with
    | some format => (Decimal.readFloat format text.toList).map (Scalar.ofBits p)
    | none => .error .syntaxError

def readFloatName? (format : Decimal.BinaryFormat) (name : String) : Option Nat :=
  match name with
  | "NaN" => some format.quietNaN
  | "+Inf" | "Inf" => some format.infinity
  | "-Inf" => some (format.signBit + format.infinity)
  | _ => none

end Primitive

namespace Codec

/-- The scalar of a kind that a JSON value stands for. -/
def scalarFromJson (kind : TypeKind) (j : Json) : Except JsonProblem Value :=
  match kind with
  | .primitive .bool =>
    match j with
    | .bool b => .ok (.scalar (.bool b))
    | j => .error (.notBool j.representation)
  | .primitive p =>
    match j, p.floatFormat? with
    | .string name, some format =>
      match Primitive.readFloatName? format name with
      | some bits => .ok (.scalar (.ofBits p bits))
      | none => .error (.notFloatName p.name name)
    | .number text, _ =>
      match p.readNumber text with
      | .ok s => .ok (.scalar s)
      | .error cause => .error (.badNumber p.name p.readerName text cause)
    | j, _ => .error (.notNumber p.name j.representation)
  | kind =>
    match j with
    | .number _ => .error (.unsupportedPrimitive kind.scalarName)
    | j => .error (.notNumber kind.scalarName j.representation)

/-- Makes a value of a field from a JSON value at a path: its list if it is `repeated`, else a
single value. -/
abbrev JsonReader := (f : Field) → (repeated : Bool) → (path : String) → Except FromJsonError Value

/-- A single value of a field from a JSON value that is no object. -/
def singleFromJson (f : Field) (path : String) (j : Json) : Except FromJsonError Value :=
  match f.condition, j with
  | some _, .null => .ok .null
  | _, j =>
    if f.type.kind.isComposite then
      .error (.located path (.notObject f.type.name j.representation))
    else (scalarFromJson f.type.kind j).mapError (.located path)

/-- The values of fields from the members of an object. -/
def slotsFromMembers (members : List (String × JsonReader)) (path : String) :
    List Field → Except FromJsonError (List Value)
  | [] => .ok []
  | f :: fs => do
    let fieldPath := path ++ "." ++ f.id
    let v ←
      match members.lookup f.id with
      | some read => read f f.repetition.isSome fieldPath
      | none =>
        if f.condition.isSome && f.repetition.isNone then .ok .null
        else .error (.located fieldPath .missing)
    let vs ← slotsFromMembers members path fs
    .ok (v :: vs)

/-- The record of a type from the members of an object. -/
def recordFromMembers (t : RecordType) (members : List (String × JsonReader)) (path : String) :
    Except FromJsonError Record :=
  match members.find? fun (key, _) => (t.fieldIndex? key).isNone with
  | some (key, _) => .error (.located path (.unknownField key))
  | none => (slotsFromMembers members path t.fields).map fun slots => ⟨t, slots⟩

/-- The list of a field from the items of an array, counted from `i`. -/
def itemsFromReaders (f : Field) (path : String) :
    Nat → List JsonReader → Except FromJsonError (List Value)
  | _, [] => .ok []
  | i, read :: reads => do
    let v ← read f false (path ++ "[" ++ toString i ++ "]")
    let vs ← itemsFromReaders f path (i + 1) reads
    .ok (v :: vs)

mutual

/-- What a JSON value makes of a field. -/
def jsonReader (c : Codec) : Json → JsonReader
  | .array items =>
    let readers := itemReaders c items
    fun f repeated path =>
      if repeated then (itemsFromReaders f path 0 readers).map .list
      else singleFromJson f path (.array items)
  | .object members =>
    let readers := memberReaders c members
    fun f repeated path =>
      if repeated then .error (.located path (.notArray (Json.object members).representation))
      else if f.type.kind.isComposite then
        match c.type? f.type.name with
        | some t => (recordFromMembers t readers path).map Record.toValue
        | none => .error (.located path (.unsupportedPrimitive f.type.name))
      else singleFromJson f path (.object members)
  | j => fun f repeated path =>
    if repeated then .error (.located path (.notArray j.representation))
    else singleFromJson f path j

/-- What JSON values make of a field each. -/
def itemReaders (c : Codec) : List Json → List JsonReader
  | [] => []
  | j :: js => jsonReader c j :: itemReaders c js

/-- What the values of members make of a field each. -/
def memberReaders (c : Codec) : List (String × Json) → List (String × JsonReader)
  | [] => []
  | (key, j) :: rest => (key, jsonReader c j) :: memberReaders c rest

end

/-- The record of a type that a JSON value stands for. -/
def recordOfJson (c : Codec) (t : RecordType) (j : Json) : Except FromJsonError Record :=
  match j with
  | .object members => recordFromMembers t (c.memberReaders members) t.name
  | j => .error (.located t.name (.notObject t.name j.representation))

/-- The record of a type that some bytes spell as JSON. -/
def recordFromJson (c : Codec) (t : RecordType) (bytes : List UInt8) :
    Except FromJsonError Record :=
  match Json.parseBytes? bytes with
  | none => .error (.syntaxError t.name)
  | some j => c.recordOfJson t j

end Codec

end Savefile
