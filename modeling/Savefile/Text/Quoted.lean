import Savefile.Text.Printable

/-! # Quoted text

Messages show a piece of text between double quotes. A quote and a backslash get a backslash,
printable characters stand for themselves, and the rest is written as an escape.
-/
namespace Savefile.Text

/-- The lower-case hexadecimal digit of a number below sixteen. -/
def hexDigit (n : Nat) : Char := Nat.digitChar n

/-- The last `width` hexadecimal digits of `n`. -/
def hexPadded : Nat → Nat → List Char
  | 0, _ => []
  | width + 1, n => hexPadded width (n / 16) ++ [hexDigit (n % 16)]

def namedEscape? : Nat → Option Char
  | 0x07 => some 'a'
  | 0x08 => some 'b'
  | 0x0c => some 'f'
  | 0x0a => some 'n'
  | 0x0d => some 'r'
  | 0x09 => some 't'
  | 0x0b => some 'v'
  | _ => none

/-- One character as it stands between quotes of a kind. -/
def quoteCharIn (mark c : Char) : List Char :=
  if c == mark || c == '\\' then ['\\', c]
  else if isPrintable c then [c]
  else
    match namedEscape? c.toNat with
    | some e => ['\\', e]
    | none =>
      if c.toNat < 0x20 || c.toNat == 0x7f then '\\' :: 'x' :: hexPadded 2 c.toNat
      else if c.toNat < 0x10000 then '\\' :: 'u' :: hexPadded 4 c.toNat
      else '\\' :: 'U' :: hexPadded 8 c.toNat

/-- One character as it stands between double quotes. -/
def quoteChar (c : Char) : List Char := quoteCharIn '"' c

/-- A character between single quotes, with escapes. -/
def quotedChar (c : Char) : String :=
  String.ofList ('\'' :: quoteCharIn '\'' c ++ ['\''])

/-- The text between double quotes, with escapes. -/
def quoted (s : String) : String :=
  String.ofList ('"' :: s.toList.flatMap quoteChar ++ ['"'])

end Savefile.Text
