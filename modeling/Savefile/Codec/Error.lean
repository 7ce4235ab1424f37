import Savefile.Record.Check

/-! # Errors of reading and writing records

An error names the outermost record's type, the way from there to the value that failed, the
kind of failure and its cause. An error of reading also has the offset of that value. An error that
a sink gives is wrapped as it is, and may itself wrap an error of reading or writing.
-/
namespace Savefile

/-- An error that a sink gives: its text, and what kinds of error it wraps. -/
structure Refusal where
  reason : String
  /-- It wraps an error about a value that is no scalar of the wanted kind. -/
  wrapsMisfit : Bool
  /-- It wraps an error of reading. -/
  wrapsReading : Bool

/-- An error of the sink's own, which wraps no other. -/
def Refusal.plain (reason : String) : Refusal := ⟨reason, false, false⟩

/-- What made reading or writing a value fail. -/
inductive Cause where
  /-- Nothing is left of the input. -/
  | endOfInput
  /-- Something is left of the input, but not enough. -/
  | endInsideValue
  | unknownPrimitive (kind : TypeKind)
  | expression (e : ExprError)
  /-- Many elements are asked for, and one of them takes no input. -/
  | emptyElement (kind : RepetitionKind) (source : String) (count : Nat)
  | misfit (m : Misfit)
  /-- A record, or none, stands where a record of another type is wanted. -/
  | otherRecord (found : Option String) (wanted : String)
  | otherCount (kind : RepetitionKind) (source : String) (count length : Nat)
  /-- The sink took less than it was given, without saying why. -/
  | shortWrite
  /-- The sink gave an error of its own. -/
  | refused (refusal : Refusal)

/-- A repetition as messages give it. -/
def repetitionText (kind : RepetitionKind) (source : String) : String :=
  kind.name ++ "(" ++ source ++ ")"

/-- The text of a cause. -/
def Cause.message : Cause → String
  | .endOfInput => "EOF"
  | .endInsideValue => "unexpected EOF"
  | .unknownPrimitive kind => "unknown primitive " ++ kind.scalarName
  | .expression e => e.message
  | .emptyElement kind source count =>
    repetitionText kind source ++ " = " ++ toString count
      ++ " repeats an element that consumes no input"
  | .misfit m => m.message
  | .otherRecord found wanted => "got " ++ found.getD "nil" ++ " record, want " ++ wanted
  | .otherCount kind source count length =>
    repetitionText kind source ++ " evaluates to " ++ toString count ++ " but the list holds "
      ++ toString length ++ " elements"
  | .shortWrite => "short write"
  | .refused refusal => refusal.reason

namespace Cause

/-- Whether the cause is, or wraps, an error about a value that is no scalar of the wanted kind. -/
def wrapsMisfit : Cause → Bool
  | .misfit (.wrongScalar _ _) => true
  | .refused refusal => refusal.wrapsMisfit
  | _ => false

/-- Whether the cause wraps an error of reading. -/
def wrapsReading : Cause → Bool
  | .refused refusal => refusal.wrapsReading
  | _ => false

end Cause

/-- One step from a record towards a value inside it. -/
inductive PathStep where
  | field (id : String)
  | index (i : Nat)
  deriving DecidableEq

namespace PathStep

def text : PathStep → String
  | .field id => id
  | .index i => "[" ++ toString i ++ "]"

/-- Puts a step before the text of the steps after it. -/
def join (step : PathStep) (rest : String) : String :=
  if rest.isEmpty then step.text
  else if rest.startsWith "[" then step.text ++ rest
  else step.text ++ "." ++ rest

/-- The text of steps. -/
def render (path : List PathStep) : String := path.foldr join ""

end PathStep

/-- The kind of a failure to read. -/
inductive DecodeErrorKind where
  | truncated
  | expression
  /-- A number that is no kind. -/
  | unassigned (code : Int)
  deriving DecidableEq

namespace DecodeErrorKind

/-- The kind with the given number. -/
def ofCode (n : Int) : DecodeErrorKind :=
  if n = 1 then .truncated else if n = 2 then .expression else .unassigned n

def name : DecodeErrorKind → String
  | .truncated => "truncated"
  | .expression => "expression evaluation failed"
  | .unassigned n => "DecodeErrorKind(" ++ toString n ++ ")"

end DecodeErrorKind

/-- A failure to read a record. -/
structure DecodeError where
  kind : DecodeErrorKind
  /-- The name of the outermost record's type. -/
  type : String
  path : List PathStep
  /-- Where the value starts that could not be read. -/
  offset : Int
  cause : Cause

namespace DecodeError

/-- The text of the error. -/
def message (e : DecodeError) : String :=
  "decode " ++ e.type ++ "." ++ PathStep.render e.path ++ " at offset " ++ toString e.offset ++ ": "
    ++ e.kind.name ++ ": " ++ e.cause.message

/-- The error as an element of a list sees it. -/
def inElement (i : Nat) (e : DecodeError) : DecodeError := { e with path := .index i :: e.path }

/-- The error as the record sees it in whose field it arose. -/
def inField (type id : String) (e : DecodeError) : DecodeError :=
  { e with path := .field id :: e.path, type := if type.isEmpty then e.type else type }

end DecodeError

/-- The kind of a failure to write. -/
inductive EncodeErrorKind where
  | sink
  | expression
  | invalid
  | count
  /-- A number that is no kind. -/
  | unassigned (code : Int)
  deriving DecidableEq

namespace EncodeErrorKind

/-- The kind with the given number. -/
def ofCode (n : Int) : EncodeErrorKind :=
  if n = 1 then .sink
  else if n = 2 then .expression
  else if n = 3 then .invalid
  else if n = 4 then .count
  else .unassigned n

def name : EncodeErrorKind → String
  | .sink => "sink failure"
  | .expression => "expression evaluation failed"
  | .invalid => "invalid value"
  | .count => "count mismatch"
  | .unassigned n => "EncodeErrorKind(" ++ toString n ++ ")"

end EncodeErrorKind

/-- A failure to write a record. -/
structure EncodeError where
  kind : EncodeErrorKind
  /-- The name of the outermost record's type. -/
  type : String
  path : List PathStep
  cause : Cause

namespace EncodeError

/-- The text of the error. -/
def message (e : EncodeError) : String :=
  "encode " ++ e.type ++ "." ++ PathStep.render e.path ++ ": " ++ e.kind.name ++ ": "
    ++ e.cause.message

/-- The error as an element of a list sees it. An error of reading that it wraps takes the step
in its place. -/
def inElement (i : Nat) (e : EncodeError) : EncodeError :=
  if e.cause.wrapsReading then e else { e with path := .index i :: e.path }

/-- The error as the record sees it in whose field it arose. An error of reading that it wraps
takes the step in its place. -/
def inField (type id : String) (e : EncodeError) : EncodeError :=
  if e.cause.wrapsReading then e
  else { e with path := .field id :: e.path, type := if type.isEmpty then e.type else type }

end EncodeError

end Savefile
