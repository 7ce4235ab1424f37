import Savefile.Schema.Basic
import Savefile.Schema.TypeSpelling
import Savefile.Text.Identifier
import Savefile.Yaml.Tree

/-! # Schema documents

A document has a byte order and a root name under `meta`, declared types under `types`, and the
fields of the root under `items`. Each is read in this order, and the first fault is reported.
-/
namespace Savefile.Schema

open Yaml (Node)

/-- The result of reading a part of a document. -/
abbrev Read (α : Type) := Except SchemaError α

def refuse {α : Type} (path : String) (problem : SchemaProblem) : Read α := .error ⟨path, problem⟩

/-- Byte order and root name; everything but `be` is little endian. -/
def readMeta (node : Node) : Read (ByteOrder × String) :=
  if node.isNull then .ok (.little, defaultRootName)
  else
    match node with
    | .mapping _ =>
      let order := match node.get? "endian" with
        | some (.scalar _ "be") => ByteOrder.big
        | _ => .little
      match node.get? "id" with
      | none => .ok (order, defaultRootName)
      | some (.scalar _ name) =>
        if Text.isIdentifier name then .ok (order, name) else refuse "meta.id" .invalidRootName
      | some _ => refuse "meta.id" .invalidRootName
    | _ => refuse "meta" .metaNotMapping

/-- A text that a field must have. -/
def requiredText (path : String) (node : Node) (key : String) : Read String :=
  match node.get? key with
  | none => refuse path (.missingKey key)
  | some (.scalar _ value) =>
    if value.isEmpty then refuse (path ++ "." ++ key) .emptyText else .ok value
  | some _ => refuse (path ++ "." ++ key) .emptyText

/-- Whether nothing but white space is in the text. -/
def isBlankText (s : String) : Bool := s.toList.all Text.isSpace

def readCondition [Language] (path : String) : Node → Read Expr
  | .scalar _ source =>
    if isBlankText source then refuse path .emptyExpression
    else
      match Expr.compile? source with
      | some e => .ok e
      | none => refuse path (.unparsableExpression source)
  | _ => refuse path .emptyExpression

/-- Drops the white space of patterns at the end. -/
def dropTrailingSpace (cs : List Char) : List Char :=
  (cs.reverse.dropWhile Text.isPatternSpace).reverse

/-- A word and what stands in the brackets after it, on one line. -/
def wordAndBrackets? (cs : List Char) : Option (String × String) :=
  let cs := cs.dropWhile Text.isPatternSpace
  let word := cs.takeWhile Text.isIdentRest
  let rest := (cs.dropWhile Text.isIdentRest).dropWhile Text.isPatternSpace
  match rest with
  | '(' :: body =>
    let body := dropTrailingSpace body
    let inner := body.dropLast
    if Text.isIdentifierChars word && body.getLast? == some ')' && !inner.contains '\n' then
      some (String.ofList word, String.ofList inner)
    else none
  | _ => none

/-- The repetition of a field, written as `Count(...)`. -/
def readRepetition [Language] (path : String) : Node → Read Repetition
  | .scalar _ text =>
    match wordAndBrackets? text.toList with
    | none => refuse path (.unparsableRepetition text)
    | some (kind, source) =>
      if kind != RepetitionKind.name .count then refuse path (.unknownRepetition kind)
      else if isBlankText source then refuse path .emptyCount
      else
        match Expr.compile? source with
        | some e => .ok ⟨.count, e⟩
        | none => refuse path (.unparsableCount source)
  | _ => refuse path .repetitionNotText

def readFieldCondition [Language] (path : String) (node : Node) : Read (Option Condition) :=
  match node.get? "if" with
  | none => .ok none
  | some n => do
    let e ← readCondition (path ++ ".if") n
    match node.get? "advance_if_false" with
    | none => .ok (some ⟨e, false⟩)
    | some a =>
      match a.truth? with
      | some b => .ok (some ⟨e, b⟩)
      | none => refuse (path ++ ".advance_if_false") .advanceNotBoolean

def readFieldRepetition [Language] (path : String) (node : Node) : Read (Option Repetition) :=
  match node.get? "repeat" with
  | none => .ok none
  | some n => (readRepetition (path ++ ".repeat") n).map some

def readField [Language] (path : String) (node : Node) : Read Field :=
  match node with
  | .mapping _ => do
    let id ← requiredText path node "id"
    if !Text.isIdentifier id || id == rootVariable then
      refuse (path ++ ".id") (.invalidIdentifier id)
    else
      let text ← requiredText path node "type"
      match splitMarkers text with
      | .error problem => refuse (path ++ ".type") problem
      | .ok (markers, base) =>
        if !Text.isIdentifier base then refuse (path ++ ".type") (.invalidTypeText base)
        else
          let condition ← readFieldCondition path node
          let repetition ← readFieldRepetition path node
          match markersFault? condition.isSome repetition.isSome none markers with
          | some problem => refuse (path ++ ".type") problem
          | none => .ok ⟨id, .ofName base, condition, repetition⟩
  | _ => refuse path .fieldNotMapping

/-- The fields from place `i` on, none of which may have an identifier seen before. -/
def readFieldsFrom [Language] (path : String) (seen : List String) :
    Nat → List Node → Read (List Field)
  | _, [] => .ok []
  | i, n :: ns => do
    let f ← readField (fieldPath path i) n
    if seen.contains f.id then refuse (fieldPath path i ++ ".id") (.duplicateField f.id)
    else
      let fs ← readFieldsFrom path (f.id :: seen) (i + 1) ns
      .ok (f :: fs)

def readFields [Language] (path : String) : Node → Read (List Field)
  | .sequence items => readFieldsFrom path [] 0 items
  | _ => refuse path .fieldsNotSequence

def isTypeNameNode : Node → Bool
  | .scalar _ name => Text.isIdentifier name
  | _ => false

/-- The declared types. -/
def readTypeEntries [Language] : List (Node × Node) → Read (List RecordType)
  | [] => .ok []
  | (key, value) :: rest => do
    let name := key.keyText
    let path := typePath name
    if !isTypeNameNode key then refuse path .invalidTypeName
    else if (Primitive.lookup? name).isSome then refuse path (.shadowsPrimitive name)
    else
      let fields ← readFields path value
      let types ← readTypeEntries rest
      .ok (⟨name, fields⟩ :: types)

/-- The declared types, unless there are none. -/
def readTypes [Language] : Option Node → Read (List RecordType)
  | none => .ok []
  | some node =>
    if node.isNull then .ok []
    else
      match node with
      | .mapping entries => readTypeEntries entries
      | _ => refuse "types" .typesNotMapping

/-- The schema of a document's tree. -/
def ofNode [Language] (root : Node) : Read Schema :=
  match root with
  | .mapping _ => do
    let (order, name) ← match root.get? "meta" with
      | none => .ok (.little, defaultRootName)
      | some node => readMeta node
    let types ← readTypes (root.get? "types")
    match root.get? "items" with
    | none => refuse "items" .missingItems
    | some node =>
      let items ← readFields "items" node
      build order name types items
  | _ => refuse "" .documentNotMapping

def parse [Language] (data : List UInt8) : Read Schema :=
  match Node.parse? data with
  | none => refuse "" .unparsableDocument
  | some none => refuse "" .documentNotMapping
  | some (some root) => ofNode root

end Savefile.Schema
