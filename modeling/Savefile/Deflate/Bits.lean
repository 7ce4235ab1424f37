/-! # Bits of a byte string

Bits are taken from the lowest of each byte on. Numbers have their lowest bit first.
-/
namespace Savefile.Deflate

/-- Bytes of which some bits of the first are already taken. -/
structure BitSource where
  /-- The bits that are left of a byte begun. -/
  bits : List Bool
  /-- The bytes after it. -/
  bytes : List UInt8

/-- The bits of a byte, lowest first. -/
def byteBits (b : UInt8) : List Bool := (List.range 8).map fun i => b.toNat.testBit i

/-- The number with the given bits, lowest first. -/
def ofBits : List Bool → Nat
  | [] => 0
  | b :: bs => (if b then 1 else 0) + 2 * ofBits bs

/-- The last `width` bits of a number, lowest first. -/
def bitsOf : Nat → Nat → List Bool
  | 0, _ => []
  | width + 1, n => (n % 2 == 1) :: bitsOf width (n / 2)

/-- Packs bits into bytes; the last byte is filled up with zeros. -/
def pack (bits : List Bool) : List UInt8 :=
  match bits with
  | b₀ :: b₁ :: b₂ :: b₃ :: b₄ :: b₅ :: b₆ :: b₇ :: rest =>
    (ofBits [b₀, b₁, b₂, b₃, b₄, b₅, b₆, b₇]).toUInt8 :: pack rest
  | [] => []
  | few => [(ofBits few).toUInt8]

namespace BitSource

/-- Bytes of which nothing is taken. -/
def ofBytes (bytes : List UInt8) : BitSource := ⟨[], bytes⟩

def next? (s : BitSource) : Option (Bool × BitSource) :=
  match s.bits with
  | b :: rest => some (b, { s with bits := rest })
  | [] =>
    match s.bytes with
    | [] => none
    | byte :: bytes =>
      match byteBits byte with
      | b :: rest => some (b, ⟨rest, bytes⟩)
      | [] => none

/-- Takes a number of `width` bits. -/
def take? : Nat → BitSource → Option (Nat × BitSource)
  | 0, s => some (0, s)
  | width + 1, s =>
    match s.next? with
    | none => none
    | some (b, s) =>
      match take? width s with
      | none => none
      | some (n, s) => some ((if b then 1 else 0) + 2 * n, s)

/-- Whether at least `n` bits are left. -/
def holds (s : BitSource) (n : Nat) : Bool :=
  n ≤ s.bits.length + 8 * (s.bytes.take n).length

/-- How many bits are left. -/
def size (s : BitSource) : Nat := s.bits.length + 8 * s.bytes.length

end BitSource

end Savefile.Deflate
