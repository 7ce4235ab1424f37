import Savefile.Decimal.Layout

/-! # Data

What expressions compute with: null, truth values, signed and unsigned integers of 64 bits,
doubles, text, bytes, lists, keyed collections and the names of these kinds. Where a collection
came from shows only in messages, which spell a variable's list unlike a literal one.
-/
namespace Savefile

/-- The first number above those of a signed integer. -/
def signedLimit : Nat := 0x8000000000000000

/-- The first number above those of an unsigned integer. -/
def unsignedLimit : Nat := 0x10000000000000000

/-- Where a list came from. -/
inductive ListOrigin where
  | variable
  | literal
  | joined
  deriving DecidableEq

/-- A value inside an expression. -/
inductive Datum where
  | null
  | bool (b : Bool)
  | int (n : Int64)
  | uint (n : UInt64)
  | double (x : Float)
  | string (s : String)
  | bytes (bs : List UInt8)
  | list (origin : ListOrigin) (items : List Datum)
  /-- A variable's collection, keyed by name. -/
  | object (entries : List (String × Datum))
  /-- A collection written in the expression, with keys of any kind. -/
  | map (entries : List (Datum × Datum))
  /-- The name of a kind of data. -/
  | type (name : String)
  deriving Inhabited

namespace Datum

/-- The name of a datum's kind, as expressions write it. -/
def typeName : Datum → String
  | .null => "null_type"
  | .bool _ => "bool"
  | .int _ => "int"
  | .uint _ => "uint"
  | .double _ => "double"
  | .string _ => "string"
  | .bytes _ => "bytes"
  | .list _ _ => "list"
  | .object _ | .map _ => "map"
  | .type _ => "type"

def showDouble (x : Float) : String :=
  Decimal.messageLayout.write Decimal.BinaryFormat.double x.toBits.toNat

/-- Bytes as messages show them. -/
def showBytes (bs : List UInt8) : String :=
  "[" ++ " ".intercalate (bs.map fun b => toString b.toNat) ++ "]"

/-- A total order by which the keys of a shown collection are sorted. -/
def keyRank : Datum → Nat
  | .null => 0
  | .bool _ => 1
  | .int _ => 2
  | .uint _ => 3
  | .double _ => 4
  | .string _ => 5
  | _ => 6

/-- Whether the first key is shown no later than the second. -/
def keyLe : Datum → Datum → Bool
  | .bool a, .bool b => !a || b
  | .int a, .int b => a.toInt ≤ b.toInt
  | .uint a, .uint b => a.toNat ≤ b.toNat
  | .double a, .double b => a ≤ b
  | .string a, .string b => !(b < a)
  | a, b => a.keyRank ≤ b.keyRank

mutual

/-- How a value inside a variable's collection is shown. -/
def showInner : Datum → String
  | .null => "<nil>"
  | .bool b => toString b
  | .int n => toString n.toInt
  | .uint n => toString n.toNat
  | .double x => showDouble x
  | .string s => s
  | .bytes bs => showBytes bs
  | .list _ items => "[" ++ " ".intercalate (showInners items) ++ "]"
  | .object entries =>
    let sorted := (showMembers entries).mergeSort fun a b => !(b.1 < a.1)
    "map[" ++ " ".intercalate (sorted.map fun (k, d) => k ++ ":" ++ d) ++ "]"
  | .map entries =>
    let sorted := (showPairs entries).mergeSort fun a b => a.1.keyLe b.1
    "map[" ++ " ".intercalate (sorted.map Prod.snd) ++ "]"
  | .type name => name

/-- Several values inside a variable's collection. -/
def showInners : List Datum → List String
  | [] => []
  | d :: ds => d.showInner :: showInners ds

/-- The members of a variable's collection, each value shown. -/
def showMembers : List (String × Datum) → List (String × String)
  | [] => []
  | (k, d) :: rest => (k, d.showInner) :: showMembers rest

/-- The members of a literal collection, each shown beside its key. -/
def showPairs : List (Datum × Datum) → List (Datum × String)
  | [] => []
  | (k, d) :: rest => (k, k.showInner ++ ":" ++ d.showInner) :: showPairs rest

end

/-- The name of a kind as it is shown inside a literal. -/
def showType : String → String
  | "list" => "list(dyn)"
  | "map" => "map(dyn, dyn)"
  | name => name

mutual

/-- How a value inside a literal is shown. -/
def showNested : Datum → String
  | .null => "0"
  | .list .variable items => "[" ++ ", ".intercalate (showInners items) ++ "]"
  | .list _ items => "[" ++ ", ".intercalate (showNesteds items) ++ "]"
  | .object entries => "\x7b" ++ ", ".intercalate (showNestedMembers entries) ++ "\x7d"
  | .map entries => "\x7b" ++ ", ".intercalate (showNestedPairs entries) ++ "\x7d"
  | .type name => showType name
  | d => d.showInner

/-- Several values inside a literal. -/
def showNesteds : List Datum → List String
  | [] => []
  | d :: ds => d.showNested :: showNesteds ds

/-- The members of a variable's collection inside a literal. -/
def showNestedMembers : List (String × Datum) → List String
  | [] => []
  | (k, d) :: rest => (k ++ ": " ++ d.showNested) :: showNestedMembers rest

/-- The members of a literal collection inside a literal. -/
def showNestedPairs : List (Datum × Datum) → List String
  | [] => []
  | (k, d) :: rest => (k.showNested ++ ": " ++ d.showNested) :: showNestedPairs rest

end

mutual

/-- How the value of a whole expression is shown. -/
def rendered : Datum → String
  | .null => "NULL_VALUE"
  | .list .literal items => "[" ++ " ".intercalate (showNesteds items) ++ "]"
  | .list .joined items => "[" ++ " ".intercalate (renderedList items) ++ "]"
  | .map entries =>
    let sorted := entries.mergeSort fun a b => a.1.keyLe b.1
    let parts := sorted.map fun (k, d) => k.showNested ++ ":" ++ d.showNested
    "map[" ++ " ".intercalate parts ++ "]"
  | d => d.showInner

/-- The values of several whole expressions. -/
def renderedList : List Datum → List String
  | [] => []
  | d :: ds => d.rendered :: renderedList ds

end

/-- The name of the host's representation of an expression's value, as messages give it. -/
def representation : Datum → String
  | .null => "structpb.NullValue"
  | .bool _ => "bool"
  | .int _ => "int64"
  | .uint _ => "uint64"
  | .double _ => "float64"
  | .string _ | .type _ => "string"
  | .bytes _ => "[]uint8"
  | .list .literal _ => "[]ref.Val"
  | .list _ _ => "[]interface \x7b\x7d"
  | .object _ => "map[string]interface \x7b\x7d"
  | .map _ => "map[ref.Val]ref.Val"

end Datum

end Savefile
