/-! # UTF-8

Bytes are read as UTF-8 one character at a time. A byte that begins no character stands for
the replacement character and is stepped over alone.
-/
namespace Savefile.Text

/-- Stands for a byte that begins no character. -/
def replacement : Char := '�'

/-- The six low bits of a continuation byte. -/
def continuation? (b : UInt8) : Option Nat :=
  if 0x80 ≤ b && b ≤ 0xbf then some (b.toNat - 0x80) else none

/-- The character that starts a byte string, with the number of bytes it takes. Overlong forms,
surrogates and numbers above the last code point are refused. -/
def leadingChar? : List UInt8 → Option (Char × Nat)
  | [] => none
  | b₀ :: bs =>
    if b₀ < 0x80 then some (Char.ofNat b₀.toNat, 1)
    else if 0xc2 ≤ b₀ && b₀ ≤ 0xdf then
      match bs with
      | b₁ :: _ => do
        let x₁ ← continuation? b₁
        some (Char.ofNat ((b₀.toNat - 0xc0) * 0x40 + x₁), 2)
      | _ => none
    else if 0xe0 ≤ b₀ && b₀ ≤ 0xef then
      match bs with
      | b₁ :: b₂ :: _ => do
        let x₁ ← continuation? b₁
        let x₂ ← continuation? b₂
        let n := (b₀.toNat - 0xe0) * 0x1000 + x₁ * 0x40 + x₂
        if n < 0x800 || (0xd800 ≤ n && n ≤ 0xdfff) then none else some (Char.ofNat n, 3)
      | _ => none
    else if 0xf0 ≤ b₀ && b₀ ≤ 0xf4 then
      match bs with
      | b₁ :: b₂ :: b₃ :: _ => do
        let x₁ ← continuation? b₁
        let x₂ ← continuation? b₂
        let x₃ ← continuation? b₃
        let n := (b₀.toNat - 0xf0) * 0x40000 + x₁ * 0x1000 + x₂ * 0x40 + x₃
        if n < 0x10000 || 0x10ffff < n then none else some (Char.ofNat n, 4)
      | _ => none
    else none

/-- Splits bytes into characters, each with the bytes it was read from. The first argument
counts the bytes still to be stepped over. -/
def splitFrom : Nat → List UInt8 → List (Char × List UInt8)
  | _, [] => []
  | skip + 1, _ :: bs => splitFrom skip bs
  | 0, b :: bs =>
    match leadingChar? (b :: bs) with
    | some (c, n) => (c, (b :: bs).take n) :: splitFrom (n - 1) bs
    | none => (replacement, [b]) :: splitFrom 0 bs

/-- The characters of a byte string, each with its bytes. -/
def split (bs : List UInt8) : List (Char × List UInt8) := splitFrom 0 bs

/-- Reads bytes as text; a byte that begins no character becomes the replacement character. -/
def decodeLossy (bs : List UInt8) : List Char := (split bs).map Prod.fst

/-- Reads bytes as text, refusing whatever is not UTF-8. The first argument counts the bytes
still to be stepped over. -/
def decodeFrom? : Nat → List UInt8 → Option (List Char)
  | _, [] => some []
  | skip + 1, _ :: bs => decodeFrom? skip bs
  | 0, b :: bs => do
    let (c, n) ← leadingChar? (b :: bs)
    let cs ← decodeFrom? (n - 1) bs
    some (c :: cs)

/-- Reads bytes as text, refusing whatever is not UTF-8. -/
def decode? (bs : List UInt8) : Option (List Char) := decodeFrom? 0 bs

/-- The bytes of a text. -/
def encode (cs : List Char) : List UInt8 := cs.flatMap String.utf8EncodeChar

end Savefile.Text
