import Savefile.Decimal.Spelling
import Savefile.Text.Quoted

/-! # Hexadecimal bytes

Each byte is two hexadecimal digits, lower-case on writing and of either case on reading.
-/
namespace Savefile.Hex

/-- Why characters are not bytes in hexadecimal. -/
inductive Error where
  | invalidByte (b : UInt8)
  | oddLength
  deriving DecidableEq

/-- A byte as a code point with, if it can be shown, its character. -/
def byteName (b : UInt8) : String :=
  let digits := String.ofList ((Text.hexPadded 4 b.toNat).map Char.toUpper)
  let c := Char.ofNat b.toNat
  if Text.isPrintable c then "U+" ++ digits ++ " '" ++ String.ofList [c] ++ "'" else "U+" ++ digits

/-- The text of the error. -/
def Error.message : Error → String
  | .invalidByte b => "encoding/hex: invalid byte: " ++ byteName b
  | .oddLength => "encoding/hex: odd length hex string"

/-- Bytes as hexadecimal digits. -/
def encode (bytes : List UInt8) : List Char := bytes.flatMap fun b => Text.hexPadded 2 b.toNat

/-- The value of a byte that is a hexadecimal digit. -/
def digit (b : UInt8) : Except Error Nat :=
  match Decimal.hexValue? (Char.ofNat b.toNat) with
  | some n => .ok n
  | none => .error (.invalidByte b)

/-- The bytes that hexadecimal digits stand for. A last digit alone has to be a digit before it is
found to be alone. -/
def decode : List UInt8 → Except Error (List UInt8)
  | [] => .ok []
  | [a] => (digit a).bind fun _ => .error .oddLength
  | a :: b :: rest => do
    let high ← digit a
    let low ← digit b
    let more ← decode rest
    .ok ((high * 16 + low).toUInt8 :: more)

end Savefile.Hex
