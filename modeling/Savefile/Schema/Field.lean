import Savefile.Expr.Basic
import Savefile.Schema.Primitive

/-! # Fields and record types

A field has an identifier and a type; it may be conditional, and it may be repeated. A repeated
field that is also conditional repeats the condition with each element.
-/
namespace Savefile

/-- What makes a field's presence depend on earlier fields. -/
structure Condition where
  expr : Expr
  /-- Whether an absent field still takes up its width. -/
  advance : Bool

/-- How a field is repeated. -/
inductive RepetitionKind where
  | count
  /-- A number that is no way to repeat; it is still repeated by a count. -/
  | unassigned (code : Int)
  deriving DecidableEq

namespace RepetitionKind

/-- The way to repeat with the given number. -/
def ofCode (n : Int) : RepetitionKind := if n = 0 then .count else .unassigned n

def name : RepetitionKind → String
  | .count => "Count"
  | .unassigned n => "RepetitionKind(" ++ toString n ++ ")"

end RepetitionKind

/-- What makes a field a list. -/
structure Repetition where
  kind : RepetitionKind
  expr : Expr

/-- The structure of a field's value. -/
inductive Shape where
  | primitive
  | composite
  | conditional (inner : Shape)
  | repeated (inner : Shape)
  | unknown
  deriving DecidableEq

namespace Shape

/-- The shape as text. -/
def name : Shape → String
  | .primitive => "Primitive"
  | .composite => "Composite"
  | .conditional inner => "Conditional(" ++ inner.name ++ ")"
  | .repeated inner => "Repeated(" ++ inner.name ++ ")"
  | .unknown => "Shape(?)"

/-- The shape whose layers have the given numbers, innermost first. A layer that needs another
inside it has no meaning alone. -/
def ofCodes? (codes : List Int) : Option Shape :=
  match codes with
  | [] => none
  | first :: rest => do
    let start ← layer? none first
    rest.foldlM (fun inner code => layer? (some inner) code) start
where
  /-- One layer around what is inside. -/
  layer? (inner : Option Shape) (code : Int) : Option Shape :=
    if code = 0 then some .primitive
    else if code = 1 then some .composite
    else if code = 2 then inner.map .conditional
    else if code = 3 then inner.map .repeated
    else some .unknown

end Shape

/-- One field of a record. -/
structure Field where
  id : String
  type : TypeRef
  condition : Option Condition
  repetition : Option Repetition

namespace Field

/-- The shape without repetition. -/
def elementShape (f : Field) : Shape :=
  let base := if f.type.kind.isComposite then Shape.composite else .primitive
  if f.condition.isSome then .conditional base else base

/-- The shape of the field's value: repetition outside, condition inside. -/
def shape (f : Field) : Shape :=
  if f.repetition.isSome then .repeated f.elementShape else f.elementShape

/-- Whether the field may belong to the shared context: a scalar that is always there once. -/
def isContextual (f : Field) : Bool :=
  f.condition.isNone && f.repetition.isNone && !f.type.kind.isComposite

/-- Whether the field holds another record in full, whatever the data. -/
def isPlainComposite (f : Field) : Bool :=
  f.condition.isNone && f.repetition.isNone && f.type.kind.isComposite

/-- The field as a line of text. -/
def describe (f : Field) : String :=
  let condition := match f.condition with
    | some c =>
      " if (" ++ c.expr.source ++ ")" ++ (if c.advance then " advance_if_false" else "")
    | none => ""
  let repetition := match f.repetition with
    | some r => " repeat " ++ r.kind.name ++ "(" ++ r.expr.source ++ ")"
    | none => ""
  f.id ++ ": " ++ f.type.name ++ condition ++ repetition

end Field

/-- A named record layout. -/
structure RecordType where
  name : String
  fields : List Field

namespace RecordType

/-- The place of the field with the given identifier; of several the last. -/
def fieldIndex? (t : RecordType) (id : String) : Option Nat :=
  go 0 none t.fields
where
  /-- The last place from `i` on, or what was found before. -/
  go (i : Nat) (found : Option Nat) : List Field → Option Nat
    | [] => found
    | f :: fs => go (i + 1) (if f.id == id then some i else found) fs

/-- How many leading fields form the shared context. -/
def contextBoundary (t : RecordType) : Nat := (t.fields.takeWhile Field.isContextual).length

/-- The leading fields that form the shared context. -/
def contextFields (t : RecordType) : List Field := t.fields.take t.contextBoundary

end RecordType

end Savefile
