/-! # Base 64

Three bytes are written as four characters, a last group of one or two bytes is filled up with
padding. Line ends between the characters are ignored on reading, and the bits that a last group
does not need may be anything.
-/
namespace Savefile.Base64

/-- The character of a number below 64. -/
def digit (n : Nat) : Char :=
  if n < 26 then Char.ofNat ('A'.toNat + n)
  else if n < 52 then Char.ofNat ('a'.toNat + (n - 26))
  else if n < 62 then Char.ofNat ('0'.toNat + (n - 52))
  else if n = 62 then '+'
  else '/'

/-- The number of a character. -/
def value? (c : Char) : Option Nat :=
  if 'A' ≤ c ∧ c ≤ 'Z' then some (c.toNat - 'A'.toNat)
  else if 'a' ≤ c ∧ c ≤ 'z' then some (c.toNat - 'a'.toNat + 26)
  else if '0' ≤ c ∧ c ≤ '9' then some (c.toNat - '0'.toNat + 52)
  else if c = '+' then some 62
  else if c = '/' then some 63
  else none

/-- Fills up the last group. -/
def padding : Char := '='

def encode : List UInt8 → List Char
  | [] => []
  | [a] => [digit (a.toNat / 4), digit (a.toNat % 4 * 16), padding, padding]
  | [a, b] =>
    [digit (a.toNat / 4), digit (a.toNat % 4 * 16 + b.toNat / 16), digit (b.toNat % 16 * 4),
      padding]
  | a :: b :: c :: rest =>
    digit (a.toNat / 4) :: digit (a.toNat % 4 * 16 + b.toNat / 16)
      :: digit (b.toNat % 16 * 4 + c.toNat / 64) :: digit (c.toNat % 64) :: encode rest

def firstByte (x y : Nat) : UInt8 := (x * 4 + y / 16).toUInt8

def secondByte (y z : Nat) : UInt8 := (y % 16 * 16 + z / 4).toUInt8

def thirdByte (z w : Nat) : UInt8 := (z % 4 * 64 + w).toUInt8

/-- The bytes of the last group, if it is filled up. -/
def decodeLast? (a b c d : Char) : Option (List UInt8) := do
  let x ← value? a
  let y ← value? b
  if d = padding then
    if c = padding then some [firstByte x y]
    else
      let z ← value? c
      some [firstByte x y, secondByte y z]
  else
    let z ← value? c
    let w ← value? d
    some [firstByte x y, secondByte y z, thirdByte z w]

/-- The bytes that groups of four characters stand for. -/
def decodeGroups? : List Char → Option (List UInt8)
  | [] => some []
  | [a, b, c, d] => decodeLast? a b c d
  | a :: b :: c :: d :: rest => do
    let x ← value? a
    let y ← value? b
    let z ← value? c
    let w ← value? d
    let more ← decodeGroups? rest
    some (firstByte x y :: secondByte y z :: thirdByte z w :: more)
  | _ => none

def isLineEnd (c : Char) : Bool := c == '\r' || c == '\n'

/-- The bytes that characters stand for, line ends aside. -/
def decode? (cs : List Char) : Option (List UInt8) :=
  decodeGroups? (cs.filter fun c => !isLineEnd c)

end Savefile.Base64
