import Savefile.Codec.Context
import Savefile.Codec.Error
import Savefile.Codec.Note
import Savefile.Codec.Pass

/-! # Reading records

The fields of a record are read in order. A condition is evaluated before its field, a count
before its list; both see the fields read so far. Nested records are read by the reader of the
next level, which the functions here take as an argument. There are as many levels as the input can
fill; where they do not suffice, reading would not end.
-/
namespace Savefile

/-- The input that is left, and the notes taken so far, newest first. -/
structure Source where
  rest : List UInt8
  offset : Nat
  /-- Whether the source can tell its position. -/
  seekable : Bool
  notes : List Note

namespace Source

/-- Bytes from their start. -/
def ofBytes (bytes : List UInt8) : Source := ⟨bytes, 0, true, []⟩

/-- The position, or minus one if the source cannot tell it. -/
def position (s : Source) : Int := if s.seekable then s.offset else -1

/-- Takes a note. -/
def note (s : Source) (n : Note) : Source := { s with notes := n :: s.notes }

/-- Takes `n` bytes. -/
def take (s : Source) (n : Nat) : Except Cause (List UInt8 × Source) :=
  let taken := s.rest.take n
  if taken.length = n then .ok (taken, { s with rest := s.rest.drop n, offset := s.offset + n })
  else if taken.isEmpty then .error .endOfInput
  else .error .endInsideValue

end Source

/-- Why reading stopped. -/
abbrev DecodeStop := Stop DecodeError

/-- A pass over the input. -/
abbrev Decoding (α : Type) := Pass Source DecodeStop α

/-- Reads a record of the type with a name, given the context. -/
abbrev NestedDecoder := String → Option Context → Source → Decoding Record

namespace Source

/-- A failure at a position. -/
def fail {α : Type} (s : Source) (kind : DecodeErrorKind) (offset : Int) (cause : Cause) :
    Decoding α :=
  .failed (.error ⟨kind, "", [], offset, cause⟩) s

/-- The end of reading at an expression that has no value of the wanted kind. -/
def unevaluated {α : Type} (s : Source) (stop : Stop ExprError) : Decoding α :=
  .failed (stop.map fun e => ⟨.expression, "", [], s.position, .expression e⟩) s

end Source

/-- From this count on, every element of a list has to take some input. -/
def emptyElementLimit : Nat := 65536

namespace Codec

def readScalar (c : Codec) (kind : TypeKind) (s : Source) : Decoding Value :=
  match kind with
  | .primitive p =>
    match s.take p.width with
    | .ok (bytes, s') => .done (.scalar (.decode c.schema.order p bytes)) s'
    | .error cause => s.fail .truncated s.position cause
  | kind => s.fail .truncated s.position (.unknownPrimitive kind)

def readBase (c : Codec) (nested : NestedDecoder) (t : TypeRef) (context : Option Context)
    (s : Source) : Decoding Value :=
  if t.kind.isComposite then (nested t.name context s).map Record.toValue
  else c.readScalar t.kind s

/-- Steps over the bytes of an absent field. -/
def skipAbsent (c : Codec) (t : TypeRef) (advance : Bool) (s : Source) : Decoding Value :=
  if advance then
    match s.take (c.keptWidth t) with
    | .ok (_, s') => .done .null s'
    | .error cause => s.fail .truncated s.position cause
  else .done .null s

/-- Reads a single value of a field, or an element of its list. -/
def readElement (c : Codec) (nested : NestedDecoder) (f : Field) (fr : Frame) (s : Source) :
    Decoding Value :=
  match f.condition with
  | none => c.readBase nested f.type fr.context s
  | some cond =>
    match cond.expr.evalBool fr.scope with
    | .error stop => s.unevaluated stop
    | .ok true => c.readBase nested f.type fr.context s
    | .ok false => c.skipAbsent f.type cond.advance s

/-- Reads the last `left` of `count` elements; those before are newest first. -/
def readElements (read : Source → Decoding Value) (r : Repetition) (count : Nat) :
    Nat → List Value → Source → Decoding (List Value)
  | 0, items, s => .done items.reverse s
  | left + 1, items, s =>
    match read s with
    | .failed stop s' => .failed (stop.map (.inElement (count - (left + 1)))) s'
    | .done v s' =>
      if emptyElementLimit < count ∧ s'.position = s.position then
        s'.fail .expression s.position (.emptyElement r.kind r.expr.source count)
      else readElements read r count left (v :: items) s'

def readField (c : Codec) (nested : NestedDecoder) (f : Field) (fr : Frame) (s : Source) :
    Decoding Value :=
  match f.repetition with
  | none => c.readElement nested f fr s
  | some r =>
    match r.expr.evalCount fr.scope with
    | .error stop => s.unevaluated stop
    | .ok count => (readElements (c.readElement nested f fr) r count count [] s).map .list

/-- Reads the fields that are left of a record; the values of those before are newest first. -/
def readFields (c : Codec) (nested : NestedDecoder) (t : RecordType) :
    List Field → List Value → Frame → Source → Decoding (List Value)
  | [], slots, _, s => .done slots.reverse s
  | f :: fs, slots, fr, s =>
    let fr := fr.before (c.sharesAfter? t.name) t slots
    match c.readField nested f fr s with
    | .failed stop s' => .failed (stop.map (.inField t.name f.id)) s'
    | .done v s' =>
      readFields c nested t fs (v :: slots) (fr.bind f.id v)
        (s'.note (.decodedField t.name f.id s.position (!v.isNull)))

/-- Reads a record of the type with a name. The root does not see the context it is given. -/
def decodeRecord (c : Codec) : Nat → NestedDecoder
  | 0, _, _, s => .failed (.fault .tooDeep) s
  | depth + 1, name, context, s =>
    match c.type? name with
    | none => .failed (.fault (.undeclared name)) s
    | some t =>
      let frame := Frame.start (if c.isRoot name then none else context)
      (c.readFields (decodeRecord c depth) t t.fields [] frame s).map fun slots => ⟨t, slots⟩

/-- How deep records can nest in an input of the given length: two active records of one type
and context stand at different positions. -/
def depthLimit (c : Codec) (length : Nat) : Nat :=
  2 * (length + 1) * (c.schema.types.length + 1) + 1

/-- Reads a record of the type with a name and takes a note of it. -/
def decodeType (c : Codec) (name : String) (context : Option Context) (s : Source) :
    Decoding Record :=
  match c.decodeRecord (c.depthLimit s.rest.length) name context s with
  | .failed stop s' => .failed stop s'
  | .done r s' => .done r (s'.note (.decodedRecord name (s'.position - s.position)))

/-- Reads a root record. -/
def decodeFrom (c : Codec) (s : Source) : Decoding Record := c.decodeType c.schema.root.name none s

/-- Reads the root record that some bytes start with, and gives its length. -/
def decodePrefix (c : Codec) (data : List UInt8) : Except DecodeStop (Record × Nat) :=
  match c.decodeFrom (.ofBytes data) with
  | .done r s => .ok (r, s.offset)
  | .failed stop _ => .error stop

/-- Reads the root record that some bytes start with. -/
def decode (c : Codec) (data : List UInt8) : Except DecodeStop Record :=
  (c.decodePrefix data).map Prod.fst

end Codec

end Savefile
