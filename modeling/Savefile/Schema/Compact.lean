import Savefile.Decimal.Reading
import Savefile.Schema.Basic
import Savefile.Text.Identifier
import Savefile.Text.Space

/-! # Compact formats

A record of scalars in one line: an optional mark of the byte order, then one token per field,
which is a count, a letter for the kind and perhaps a name, as in `<H:version B:count 3I:ids`.
-/
namespace Savefile.Schema

def formatPrimitive? : Char → Option Primitive
  | 'b' => some .i8
  | 'B' => some .u8
  | 'h' => some .i16
  | 'H' => some .u16
  | 'i' | 'l' => some .i32
  | 'I' | 'L' => some .u32
  | 'q' => some .i64
  | 'Q' => some .u64
  | 'f' => some .f32
  | 'd' => some .f64
  | '?' => some .bool
  | _ => none

def formatOrder? : Char → Option ByteOrder
  | '<' => some .little
  | '>' | '!' => some .big
  | _ => none

/-- A token of a format: digits, a character, and a name unless it is left out. -/
structure FormatToken where
  digits : List Char
  code : Char
  name : Option (List Char)

/-- The parts of a token, if it has the form of one. -/
def FormatToken.parse? (cs : List Char) : Option FormatToken :=
  let digits := cs.takeWhile Char.isDigit
  match cs.dropWhile Char.isDigit with
  | [] => none
  | c :: rest =>
    if c.isAlpha || c == '?' then
      match rest with
      | [] => some ⟨digits, c, none⟩
      | ':' :: name => if name.isEmpty then none else some ⟨digits, c, some name⟩
      | _ => none
    else none

def tokenPath (i : Nat) : String := fieldPath "format" i

/-- The expression that is a number. -/
def literalCount (n : Nat) : Expr :=
  ⟨toString n, some (Expr.Term.eval (.literal (.int (Int64.ofNat n))))⟩

/-- The repetition that the digits of a token ask for: none for no digits and for one. -/
def tokenRepetition (digits : List Char) : Except SchemaProblem (Option Repetition) :=
  if digits.isEmpty then .ok none
  else
    match Decimal.readSigned 64 digits with
    | .error _ => .error (.invalidCount (String.ofList digits))
    | .ok n => .ok (if n = 1 then none else some ⟨.count, literalCount n.toNat⟩)

/-- The identifier of a token: its name, or one made of its place. -/
def tokenId (i : Nat) (name : Option (List Char)) : Except SchemaProblem String :=
  match name with
  | none => .ok ("field_" ++ toString i)
  | some cs =>
    let id := String.ofList cs
    if Text.isIdentifier id && id != rootVariable then .ok id
    else .error (.invalidIdentifier id)

def tokenField (i : Nat) (cs : List Char) : Except SchemaProblem Field :=
  match FormatToken.parse? cs with
  | none => .error (.invalidToken (String.ofList cs))
  | some t =>
    match formatPrimitive? t.code with
    | none => .error (.unknownFormatCharacter t.code)
    | some p => do
      let id ← tokenId i t.name
      let repetition ← tokenRepetition t.digits
      .ok ⟨id, .ofPrimitive p, none, repetition⟩

/-- The fields of the tokens from place `i` on. -/
def tokenFields : Nat → List (List Char) → Except SchemaError (List Field)
  | _, [] => .ok []
  | i, cs :: rest =>
    match tokenField i cs with
    | .error problem => .error ⟨tokenPath i, problem⟩
    | .ok f => (tokenFields (i + 1) rest).map fun fs => f :: fs

/-- The byte order that a format starts with, and its tokens. Without a mark the order is big
endian. -/
def formatParts (format : String) : ByteOrder × List (List Char) :=
  match Text.trimChars format.toList with
  | [] => (.big, [])
  | c :: cs =>
    match formatOrder? c with
    | some order => (order, Text.words cs)
    | none => (.big, Text.words (c :: cs))

/-- The schema that a compact format describes: a root record alone. -/
def parseCompact (format : String) : Except SchemaError Schema := do
  let (order, tokens) := formatParts format
  let items ← tokenFields 0 tokens
  if items.isEmpty then .error ⟨"format", .noFields⟩
  else
    match firstRepeat? [] 0 (items.map (·.id)) with
    | some (i, id) => .error ⟨tokenPath i, .duplicateField id⟩
    | none => build order defaultRootName [] items

end Savefile.Schema
