import Savefile.Schema.Primitive

/-! # Words as bytes

A number below `256 ^ width` is a row of `width` digits in base 256, least significant first in
little endian and last in big endian.
-/
namespace Savefile.Bytes

/-- The last `width` digits of a number in base 256, least significant first. -/
def digits : Nat → Nat → List UInt8
  | 0, _ => []
  | width + 1, n => (n % 256).toUInt8 :: digits width (n / 256)

/-- The number of which these are the digits in base 256, least significant first. -/
def ofDigits : List UInt8 → Nat
  | [] => 0
  | b :: bs => b.toNat + 256 * ofDigits bs

/-- A number of `width` bytes in a byte order. -/
def word (order : ByteOrder) (width n : Nat) : List UInt8 :=
  match order with
  | .little => digits width n
  | .big => (digits width n).reverse

/-- The number that bytes stand for in a byte order. -/
def ofWord (order : ByteOrder) (bs : List UInt8) : Nat :=
  match order with
  | .little => ofDigits bs
  | .big => ofDigits bs.reverse

end Savefile.Bytes
