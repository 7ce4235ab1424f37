import Savefile.Decimal.Spelling
import Savefile.Expr.Compare
import Savefile.Text.Utf8

/-! # Conversions and functions

Each conversion takes only some kinds. Text is read as a whole number in base ten, as a float or
as a truth value; white space around it is not skipped.

There are no patterns, points in time or spans of time among the data. The functions of these
(`matches`, `duration`, `timestamp` and the parts of a time) can be written in an expression, and
have no value.
-/
namespace Savefile.Datum

/-- The integer that a datum converts to; a double is cut off toward zero. -/
def toInt : Datum → Evaluation
  | .int n => .ok (.int n)
  | .uint n => if n.toNat < signedLimit then .ok (.int n.toInt64) else .error .integerOverflow
  | .double x =>
    if (-9223372036854775808.0 : Float) < x && x < (9223372036854775808.0 : Float) then
      .ok (.int x.toInt64)
    else .error .integerOverflow
  | .string s =>
    match Decimal.readSigned 64 s.toList with
    | .ok n => .ok (.int (Int64.ofInt n))
    | .error _ => .error (.conversion "string" "int")
  | _ => .error .noSuchOverload

/-- The unsigned integer that a datum converts to; a double is cut off toward zero. -/
def toUInt : Datum → Evaluation
  | .uint n => .ok (.uint n)
  | .int n => if 0 ≤ n.toInt then .ok (.uint n.toUInt64) else .error .unsignedOverflow
  | .double x =>
    if (0.0 : Float) ≤ x && x < (18446744073709551616.0 : Float) then .ok (.uint x.toUInt64)
    else .error .unsignedOverflow
  | .string s =>
    match Decimal.readUnsigned 64 s.toList with
    | .ok n => .ok (.uint n.toUInt64)
    | .error _ => .error (.conversion "string" "uint")
  | _ => .error .noSuchOverload

def toDouble : Datum → Evaluation
  | .double x => .ok (.double x)
  | .int n => .ok (.double n.toFloat)
  | .uint n => .ok (.double n.toFloat)
  | .string s =>
    match Decimal.readAnyFloat .double s.toList with
    | .ok bits => .ok (.double (Float.ofBits bits.toUInt64))
    | .error _ => .error (.conversion "string" "double")
  | _ => .error .noSuchOverload

def toText : Datum → Evaluation
  | .string s => .ok (.string s)
  | .bytes bs =>
    match Text.decode? bs with
    | some cs => .ok (.string (String.ofList cs))
    | none => .error .invalidText
  | .bool b => .ok (.string (toString b))
  | .int n => .ok (.string (toString n.toInt))
  | .uint n => .ok (.string (toString n.toNat))
  | .double x => .ok (.string (showDouble x))
  | _ => .error .noSuchOverload

def toBytes : Datum → Evaluation
  | .bytes bs => .ok (.bytes bs)
  | .string s => .ok (.bytes (Text.encode s.toList))
  | _ => .error .noSuchOverload

/-- The truth value that a text spells. -/
def truth? : String → Option Bool
  | "1" | "t" | "T" | "true" | "TRUE" | "True" => some true
  | "0" | "f" | "F" | "false" | "FALSE" | "False" => some false
  | _ => none

/-- The truth value that a datum converts to. -/
def toBool : Datum → Evaluation
  | .bool b => .ok (.bool b)
  | .string s =>
    match truth? s with
    | some b => .ok (.bool b)
    | none => .error (.conversion "string" "bool")
  | _ => .error .noSuchOverload

/-- The number of characters, bytes, elements or members. -/
def size : Datum → Evaluation
  | .string s => .ok (.int (Int64.ofNat s.length))
  | .bytes bs => .ok (.int (Int64.ofNat bs.length))
  | .list _ items => .ok (.int (Int64.ofNat items.length))
  | .object entries => .ok (.int (Int64.ofNat entries.length))
  | .map entries => .ok (.int (Int64.ofNat entries.length))
  | _ => .error .noSuchOverload

/-- A question about two texts. -/
def askTexts (ask : List Char → List Char → Bool) : Datum → Datum → Evaluation
  | .string s, .string t => .ok (.bool (ask s.toList t.toList))
  | _, _ => .error .noSuchOverload

/-- Whether the second text occurs in the first. -/
def occursIn : List Char → List Char → Bool
  | [], t => t.isEmpty
  | c :: cs, t => t.isPrefixOf (c :: cs) || occursIn cs t

/-- The value of a function call; the functions of patterns and times have none. -/
def apply (function : String) (args : List Datum) : Evaluation :=
  match function, args with
  | "int", [d] => d.toInt
  | "uint", [d] => d.toUInt
  | "double", [d] => d.toDouble
  | "string", [d] => d.toText
  | "bytes", [d] => d.toBytes
  | "bool", [d] => d.toBool
  | "type", [d] => .ok (.type d.typeName)
  | "dyn", [d] => .ok d
  | "size", [d] => d.size
  | "contains", [d, e] => askTexts occursIn d e
  | "startsWith", [d, e] => askTexts (fun s t => t.isPrefixOf s) d e
  | "endsWith", [d, e] => askTexts (fun s t => t.isSuffixOf s) d e
  | _, _ => .error .noSuchOverload

end Savefile.Datum
