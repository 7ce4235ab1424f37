import Savefile.Bytes.Word
import Savefile.Decimal.Layout
import Savefile.Expr.Datum

/-! # Scalars

A value of one of the scalar kinds. Floats are kept as their bits, so that nothing about them is
lost on the way from bytes to bytes.
-/
namespace Savefile

/-- A value of a scalar kind. -/
inductive Scalar where
  | u8 (n : UInt8)
  | u16 (n : UInt16)
  | u32 (n : UInt32)
  | u64 (n : UInt64)
  | i8 (n : Int8)
  | i16 (n : Int16)
  | i32 (n : Int32)
  | i64 (n : Int64)
  | f32 (bits : UInt32)
  | f64 (bits : UInt64)
  | bool (b : Bool)
  deriving DecidableEq

namespace Scalar

def kind : Scalar → Primitive
  | .u8 _ => .u8
  | .u16 _ => .u16
  | .u32 _ => .u32
  | .u64 _ => .u64
  | .i8 _ => .i8
  | .i16 _ => .i16
  | .i32 _ => .i32
  | .i64 _ => .i64
  | .f32 _ => .f32
  | .f64 _ => .f64
  | .bool _ => .bool

def bits : Scalar → Nat
  | .u8 n => n.toNat
  | .u16 n => n.toNat
  | .u32 n => n.toNat
  | .u64 n => n.toNat
  | .i8 n => n.toUInt8.toNat
  | .i16 n => n.toUInt16.toNat
  | .i32 n => n.toUInt32.toNat
  | .i64 n => n.toUInt64.toNat
  | .f32 b => b.toNat
  | .f64 b => b.toNat
  | .bool b => if b then 1 else 0

/-- The scalar of a kind with the given bits; every number but zero is true. -/
def ofBits (p : Primitive) (n : Nat) : Scalar :=
  match p with
  | .u8 => .u8 n.toUInt8
  | .u16 => .u16 n.toUInt16
  | .u32 => .u32 n.toUInt32
  | .u64 => .u64 n.toUInt64
  | .i8 => .i8 n.toUInt8.toInt8
  | .i16 => .i16 n.toUInt16.toInt16
  | .i32 => .i32 n.toUInt32.toInt32
  | .i64 => .i64 n.toUInt64.toInt64
  | .f32 => .f32 n.toUInt32
  | .f64 => .f64 n.toUInt64
  | .bool => .bool (n != 0)

def encode (order : ByteOrder) (s : Scalar) : List UInt8 :=
  Bytes.word order s.kind.width s.bits

/-- The scalar of a kind that bytes stand for. -/
def decode (order : ByteOrder) (p : Primitive) (bs : List UInt8) : Scalar :=
  ofBits p (Bytes.ofWord order bs)

/-- Zero, or false. -/
def zero (p : Primitive) : Scalar := ofBits p 0

/-- The whole number that a scalar is, if it is one. -/
def toInt? : Scalar → Option Int
  | .u8 n => some n.toNat
  | .u16 n => some n.toNat
  | .u32 n => some n.toNat
  | .u64 n => some n.toNat
  | .i8 n => some n.toInt
  | .i16 n => some n.toInt
  | .i32 n => some n.toInt
  | .i64 n => some n.toInt
  | _ => none

/-- The whole number as expressions see it: signed if it fits. -/
def intDatum (n : Int) : Datum :=
  if n < signedLimit then .int (Int64.ofInt n) else .uint n.toNat.toUInt64

/-- The scalar as expressions see it. -/
def toDatum : Scalar → Datum
  | .u8 n => intDatum n.toNat
  | .u16 n => intDatum n.toNat
  | .u32 n => intDatum n.toNat
  | .u64 n => intDatum n.toNat
  | .i8 n => intDatum n.toInt
  | .i16 n => intDatum n.toInt
  | .i32 n => intDatum n.toInt
  | .i64 n => intDatum n.toInt
  | .f32 b => .double (Float32.ofBits b).toFloat
  | .f64 b => .double (Float.ofBits b)
  | .bool b => .bool b

/-- A scalar as text, floats in the given layout. -/
def write (layout : Decimal.Layout) (s : Scalar) : String :=
  match s with
  | .f32 b => layout.write .single b.toNat
  | .f64 b => layout.write .double b.toNat
  | .bool b => toString b
  | s => toString (s.toInt?.getD 0)

/-- The name of the host's representation of a scalar, as messages give it. -/
def representation (s : Scalar) : String :=
  match s.kind with
  | .u8 => "uint8"
  | .u16 => "uint16"
  | .u32 => "uint32"
  | .u64 => "uint64"
  | .i8 => "int8"
  | .i16 => "int16"
  | .i32 => "int32"
  | .i64 => "int64"
  | .f32 => "float32"
  | .f64 => "float64"
  | .bool => "bool"

end Scalar

end Savefile
