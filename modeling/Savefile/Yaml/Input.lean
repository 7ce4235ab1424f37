import Savefile.Text.Utf8

/-! # The characters of a document

A document is UTF-8, or UTF-16 of either byte order if it starts with the mark of that order.
Control characters other than tab and line ends are not part of any document.
-/
namespace Savefile.Yaml

/-- The characters that a document may hold. -/
def isDocumentChar (c : Char) : Bool :=
  let n := c.toNat
  n == 0x09 || n == 0x0a || n == 0x0d || (0x20 ≤ n && n ≤ 0x7e) || n == 0x85
    || (0xa0 ≤ n && n ≤ 0xd7ff) || (0xe000 ≤ n && n ≤ 0xfffd) || 0x10000 ≤ n

/-- Pairs of bytes as numbers. -/
def units16? (high : UInt8 → UInt8 → Nat) : List UInt8 → Option (List Nat)
  | [] => some []
  | [_] => none
  | a :: b :: rest => (units16? high rest).map fun ns => high a b :: ns

/-- The characters of UTF-16 units; a surrogate without its partner is refused. -/
def charsOfUnits? : List Nat → Option (List Char)
  | [] => some []
  | [n] => if 0xd800 ≤ n && n ≤ 0xdfff then none else some [Char.ofNat n]
  | n :: m :: rest =>
    if 0xd800 ≤ n && n ≤ 0xdbff then
      if 0xdc00 ≤ m && m ≤ 0xdfff then
        (charsOfUnits? rest).map fun cs =>
          Char.ofNat (0x10000 + (n - 0xd800) * 0x400 + (m - 0xdc00)) :: cs
      else none
    else if 0xdc00 ≤ n && n ≤ 0xdfff then none
    else (charsOfUnits? (m :: rest)).map fun cs => Char.ofNat n :: cs

/-- The characters of a document without the mark of its encoding. -/
def documentChars? (data : List UInt8) : Option (List Char) := do
  let cs ← match data with
    | 0xff :: 0xfe :: rest =>
      (units16? (fun a b => b.toNat * 256 + a.toNat) rest).bind charsOfUnits?
    | 0xfe :: 0xff :: rest =>
      (units16? (fun a b => a.toNat * 256 + b.toNat) rest).bind charsOfUnits?
    | 0xef :: 0xbb :: 0xbf :: rest => Text.decode? rest
    | _ => Text.decode? data
  if cs.all isDocumentChar then some cs else none

end Savefile.Yaml
