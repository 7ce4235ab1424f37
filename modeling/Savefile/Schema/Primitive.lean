/-! # Primitives

The scalar kinds that a record is made of, and the order of their bytes.
-/
namespace Savefile

/-- The order in which the bytes of a number stand. -/
inductive ByteOrder where
  | little
  | big
  deriving DecidableEq

namespace ByteOrder

def name : ByteOrder → String
  | .little => "le"
  | .big => "be"

def longName : ByteOrder → String
  | .little => "LittleEndian"
  | .big => "BigEndian"

/-- The order with the given number; any other than one is little endian. -/
def ofCode (n : Int) : ByteOrder := if n = 1 then .big else .little

end ByteOrder

/-- A scalar kind. -/
inductive Primitive where
  | u8 | u16 | u32 | u64
  | i8 | i16 | i32 | i64
  | f32 | f64
  | bool
  deriving DecidableEq

namespace Primitive

/-- Every scalar kind, in the order of their numbers. -/
def all : List Primitive := [.u8, .u16, .u32, .u64, .i8, .i16, .i32, .i64, .f32, .f64, .bool]

/-- The name of a scalar kind. -/
def name : Primitive → String
  | .u8 => "u8"
  | .u16 => "u16"
  | .u32 => "u32"
  | .u64 => "u64"
  | .i8 => "i8"
  | .i16 => "i16"
  | .i32 => "i32"
  | .i64 => "i64"
  | .f32 => "f32"
  | .f64 => "f64"
  | .bool => "bool"

/-- The number of bytes of a scalar. -/
def width : Primitive → Nat
  | .u8 | .i8 | .bool => 1
  | .u16 | .i16 => 2
  | .u32 | .i32 | .f32 => 4
  | .u64 | .i64 | .f64 => 8

/-- The scalar kind that a type name stands for; signed kinds have a second name. -/
def lookup? : String → Option Primitive
  | "u8" => some .u8
  | "u16" => some .u16
  | "u32" => some .u32
  | "u64" => some .u64
  | "i8" | "s8" => some .i8
  | "i16" | "s16" => some .i16
  | "i32" | "s32" => some .i32
  | "i64" | "s64" => some .i64
  | "f32" => some .f32
  | "f64" => some .f64
  | "bool" => some .bool
  | _ => none

/-- The number of a scalar kind, counted from one. -/
def code : Primitive → Nat
  | .u8 => 1
  | .u16 => 2
  | .u32 => 3
  | .u64 => 4
  | .i8 => 5
  | .i16 => 6
  | .i32 => 7
  | .i64 => 8
  | .f32 => 9
  | .f64 => 10
  | .bool => 11

end Primitive

/-- What a type name refers to. -/
inductive TypeKind where
  | primitive (p : Primitive)
  | composite
  /-- A number that is no scalar kind; nothing can be read or written as such. -/
  | unassigned (code : Int)
  deriving DecidableEq

namespace TypeKind

/-- The kind with the given number. -/
def ofCode (n : Int) : TypeKind :=
  if n = 0 then .composite
  else
    match Primitive.all.find? fun p => (p.code : Int) = n with
    | some p => .primitive p
    | none => .unassigned n

/-- The kind that a type name stands for by itself. -/
def ofName (name : String) : TypeKind :=
  match Primitive.lookup? name with
  | some p => .primitive p
  | none => .composite

/-- The name of the scalar kind; empty for a composite. -/
def scalarName : TypeKind → String
  | .primitive p => p.name
  | .composite => ""
  | .unassigned n => "Primitive(" ++ toString n ++ ")"

/-- The number of bytes of the scalar kind, if it is one. -/
def scalarWidth : TypeKind → Nat
  | .primitive p => p.width
  | _ => 0

def isComposite : TypeKind → Bool
  | .composite => true
  | _ => false

end TypeKind

/-- A field's type: a scalar kind or the name of a composite type. -/
structure TypeRef where
  name : String
  kind : TypeKind
  deriving DecidableEq

/-- A scalar type under its own name. -/
def TypeRef.ofPrimitive (p : Primitive) : TypeRef := ⟨p.name, .primitive p⟩

/-- The type that a name refers to, scalar names being taken first. -/
def TypeRef.ofName (name : String) : TypeRef :=
  match Primitive.lookup? name with
  | some p => .ofPrimitive p
  | none => ⟨name, .composite⟩

end Savefile
