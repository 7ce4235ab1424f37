import Savefile.Codec.Context
import Savefile.Codec.Error
import Savefile.Codec.Note
import Savefile.Codec.Pass

/-! # Writing records

The values of a record are written in order. Whether a conditional field is there is read off
its value, so conditions are not evaluated; a strict codec evaluates counts and compares them
with the lengths of lists. What is written goes to a sink in chunks.
-/
namespace Savefile

/-- What a sink has taken so far, newest chunk first, and the notes, newest first. -/
structure Output where
  chunks : List (List UInt8)
  count : Nat
  notes : List Note

/-- What a sink makes of a chunk: how much of it it takes, and whether it gives an error. -/
structure Acceptance where
  taken : Nat
  refusal : Option Refusal

/-- A sink's answer to a chunk, given what it has taken so far. -/
abbrev Sink := Output → List UInt8 → Acceptance

namespace Sink

/-- A sink that takes everything. -/
def memory : Sink := fun _ chunk => ⟨chunk.length, none⟩

/-- A sink with room for `limit` bytes, which gives the error, if any, when it is full. -/
def limited (limit : Nat) (refusal : Option Refusal) : Sink := fun out chunk =>
  let taken := min chunk.length (limit - out.count)
  ⟨taken, if taken < chunk.length then refusal else none⟩

end Sink

/-- What becomes of chunks that are given to a sink. -/
abbrev Delivery := Pass Output Cause Unit

/-- Why writing stopped. -/
abbrev EncodeStop := Stop EncodeError

/-- A pass that writes. -/
abbrev Encoding := Pass Output EncodeStop Unit

namespace Output

/-- Nothing taken yet. -/
def empty : Output := ⟨[], 0, []⟩

/-- The bytes that were taken. -/
def bytes (out : Output) : List UInt8 := out.chunks.reverse.flatten

/-- Takes a note. -/
def note (out : Output) (n : Note) : Output := { out with notes := n :: out.notes }

/-- A failure to write a value. -/
def fail (out : Output) (kind : EncodeErrorKind) (cause : Cause) : Encoding :=
  .failed (.error ⟨kind, "", [], cause⟩) out

/-- Gives a chunk to the sink. -/
def write (sink : Sink) (chunk : List UInt8) (out : Output) : Delivery :=
  let answer := sink out chunk
  let taken := min answer.taken chunk.length
  let out' := { out with chunks := chunk.take taken :: out.chunks, count := out.count + taken }
  match answer.refusal with
  | some refusal => .failed (.refused refusal) out'
  | none => if taken < chunk.length then .failed .shortWrite out' else .done () out'

/-- Gives chunks to the sink one by one. -/
def writeAll (sink : Sink) : List (List UInt8) → Output → Delivery
  | [], out => .done () out
  | chunk :: chunks, out =>
    match out.write sink chunk with
    | .done _ out' => writeAll sink chunks out'
    | .failed cause out' => .failed cause out'

end Output

/-- The kind of a failure to write a scalar, or the room of an absent value. A scalar's failure is
told by what the cause wraps, also if the cause comes from the sink. -/
def Cause.kindOf (scalar : Bool) (cause : Cause) : EncodeErrorKind :=
  if scalar && cause.wrapsMisfit then .invalid else .sink

/-- The delivery of a scalar, or of the room of an absent value, as a pass that writes. -/
def Delivery.toEncoding (scalar : Bool) : Delivery → Encoding
  | .done _ out => .done () out
  | .failed cause out => out.fail (cause.kindOf scalar) cause

/-- How many zeros are written at once. -/
def zeroBlock : Nat := 64

/-- The chunks in which `n` zeros are written. -/
def zeroChunks (n : Nat) : List (List UInt8) :=
  let rest := n % zeroBlock
  List.replicate (n / zeroBlock) (List.replicate zeroBlock 0)
    ++ (if rest = 0 then [] else [List.replicate rest 0])

namespace Codec

/-- Gives a value to the sink that has to be a scalar of a kind. -/
def deliver (c : Codec) (sink : Sink) (kind : TypeKind) (v : Value) (out : Output) : Delivery :=
  match v with
  | .scalar s =>
    if kind = .primitive s.kind then out.write sink (s.encode c.schema.order)
    else .failed (.misfit (.wrongScalar v kind)) out
  | v => .failed (.misfit (.wrongScalar v kind)) out

def writeScalar (c : Codec) (sink : Sink) (kind : TypeKind) (v : Value) (out : Output) : Encoding :=
  (c.deliver sink kind v out).toEncoding true

/-- Writes a single value of a field that is no record: a scalar, or the room of an absent one. -/
def writeSingle (c : Codec) (sink : Sink) (f : Field) (v : Value) (out : Output) : Encoding :=
  match f.condition, v with
  | some cond, .null =>
    if cond.advance then (out.writeAll sink (zeroChunks (c.keptWidth f.type))).toEncoding false
    else .done () out
  | _, v =>
    if f.type.kind.isComposite then out.fail .invalid (.misfit (.notRecord v f.type.name))
    else c.writeScalar sink f.type.kind v out

/-- What stops a strict codec at a list of the given length. -/
def countStop? (c : Codec) (r : Repetition) (scope : Scope) (length : Nat) : Option EncodeStop :=
  if c.options.lenient then none
  else
    match r.expr.evalCount scope with
    | .error stop => some (stop.map fun e => ⟨.expression, "", [], .expression e⟩)
    | .ok count =>
      if count = length then none
      else some (.error ⟨.count, "", [], .otherCount r.kind r.expr.source count length⟩)

/-- The type of a record that may be written where a type name is wanted. -/
def writable? (c : Codec) (wanted : String) (found : RecordType) (slots : List Value) :
    Option RecordType :=
  match c.type? wanted with
  | some t => if found.name = t.name ∧ slots.length = t.fields.length then some t else none
  | none => none

/-- The refusal of a record, or of none, where a type name is wanted. -/
def refuseRecord (wanted : String) (found : Option String) (out : Output) : Encoding :=
  .failed (.error ⟨.invalid, wanted, [], .otherRecord found wanted⟩) out

mutual

/-- Writes a value of a field: its list if it is `repeated`, else a single value. -/
def writeValue (c : Codec) (sink : Sink) (f : Field) (repeated : Option Repetition) (fr : Frame) :
    Value → Output → Encoding
  | .list items, out =>
    match repeated with
    | none => c.writeSingle sink f (.list items) out
    | some r =>
      match c.countStop? r fr.scope items.length with
      | some stop => .failed stop out
      | none => writeItems c sink f fr 0 items out
  | .record type slots, out =>
    match repeated with
    | some _ => out.fail .invalid (.misfit (.notList (.record type slots)))
    | none =>
      if f.type.kind.isComposite then
        match c.writable? f.type.name type slots with
        | none => refuseRecord f.type.name (some type.name) out
        | some t =>
          let context := if c.isRoot t.name then none else fr.context
          writeSlots c sink t type t.fields [] (.start context) slots out
      else c.writeSingle sink f (.record type slots) out
  | v, out =>
    match repeated with
    | some _ => out.fail .invalid (.misfit (.notList v))
    | none => c.writeSingle sink f v out

/-- Writes the elements of a list from the given index on. -/
def writeItems (c : Codec) (sink : Sink) (f : Field) (fr : Frame) (i : Nat) :
    List Value → Output → Encoding
  | [], out => .done () out
  | v :: vs, out =>
    match writeValue c sink f none fr v out with
    | .done _ out' => writeItems c sink f fr (i + 1) vs out'
    | .failed stop out' => .failed (stop.map (.inElement i)) out'

/-- Writes the values that are left of a record; those before are newest first. The record's own
type, whose name is the same, names the fields that it shares. -/
def writeSlots (c : Codec) (sink : Sink) (t own : RecordType) (fields : List Field)
    (before : List Value) (fr : Frame) : List Value → Output → Encoding
  | [], out => .done () out
  | v :: vs, out =>
    match fields with
    | [] => .done () out
    | f :: fs =>
      let fr := fr.before (c.sharesAfter? t.name) own before
      match writeValue c sink f f.repetition fr v out with
      | .done _ out' =>
        writeSlots c sink t own fs (v :: before) (fr.bind f.id v) vs
          (out'.note (.encodedField t.name f.id out'.count))
      | .failed stop out' => .failed (stop.map (.inField t.name f.id)) out'

end

/-- Writes a record of the type with a name. -/
def encodeRecord (c : Codec) (sink : Sink) (name : String) (context : Option Context)
    (r : Option Record) (out : Output) : Encoding :=
  match r with
  | none => refuseRecord name none out
  | some r =>
    match c.writable? name r.type r.slots with
    | none => refuseRecord name (some r.type.name) out
    | some t =>
      c.writeSlots sink t r.type t.fields [] (.start (if c.isRoot t.name then none else context))
        r.slots out

/-- Writes a record of the type with a name and takes a note of it. -/
def encodeType (c : Codec) (sink : Sink) (name : String) (context : Option Context)
    (r : Option Record) : Encoding :=
  match c.encodeRecord sink name context r .empty with
  | .done _ out => .done () (out.note (.encodedRecord name out.count))
  | .failed stop out => .failed stop out

/-- Writes a root record. -/
def encodeTo (c : Codec) (sink : Sink) (r : Option Record) : Encoding :=
  c.encodeType sink c.schema.root.name none r

/-- The bytes of a root record. -/
def encode (c : Codec) (r : Option Record) : Except EncodeStop (List UInt8) :=
  match c.encodeTo .memory r with
  | .done _ out => .ok out.bytes
  | .failed stop _ => .error stop

end Codec

end Savefile
