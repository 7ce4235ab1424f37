import Savefile.Decimal.Estimate
import Savefile.Decimal.Shortest

/-! # Reading numbers from text

Whole numbers are runs of decimal digits with an optional sign; floats add a fraction and an
exponent. A float is rounded once, straight to its own width. Exponents are counted only up to a cap,
and of very many digits before the point only the first count as places.
-/
namespace Savefile.Decimal

/-- Why a text is not taken as a number. -/
inductive NumberError where
  | syntaxError
  | outOfRange
  deriving DecidableEq

/-- The words that end a message about a number. -/
def NumberError.message : NumberError → String
  | .syntaxError => "invalid syntax"
  | .outOfRange => "value out of range"

/-- The value of a run of decimal digits after the value read so far. -/
def digitsFrom (value : Nat) : List Char → Nat
  | [] => value
  | c :: cs => digitsFrom (value * 10 + (c.toNat - '0'.toNat)) cs

def digitsValue (cs : List Char) : Nat := digitsFrom 0 cs

/-- The value of a digit; letters go on after nine. -/
def digitValue? (c : Char) : Option Nat :=
  if c.isDigit then some (c.toNat - '0'.toNat)
  else if 'a' ≤ c && c ≤ 'f' then some (c.toNat - 'a'.toNat + 10)
  else if 'A' ≤ c && c ≤ 'F' then some (c.toNat - 'A'.toNat + 10)
  else none

/-- The number below a limit that digits in a base write after the value read so far. The first
character that is no digit, or leads beyond the limit, decides the error. -/
def readDigits (base limit : Nat) (value : Nat) : List Char → Except NumberError Nat
  | [] => .ok value
  | c :: cs =>
    match digitValue? c with
    | none => .error .syntaxError
    | some d =>
      if base ≤ d then .error .syntaxError
      else if limit ≤ value * base + d then .error .outOfRange
      else readDigits base limit (value * base + d) cs

/-- An unsigned number of at most `bits` bits, without a sign. -/
def readUnsigned (bits : Nat) (cs : List Char) : Except NumberError Nat :=
  if cs.isEmpty then .error .syntaxError else readDigits 10 (Nat.pow 2 bits) 0 cs

/-- Gives a sign to a number, which has to fit `bits` bits in two's complement. -/
def withSign (bits : Nat) (negative : Bool) (n : Nat) : Except NumberError Int :=
  if negative then if n ≤ Nat.pow 2 (bits - 1) then .ok (-(n : Int)) else .error .outOfRange
  else if n < Nat.pow 2 (bits - 1) then .ok n else .error .outOfRange

/-- A number of `bits` bits in two's complement, with an optional sign. -/
def readSigned (bits : Nat) (cs : List Char) : Except NumberError Int :=
  let (negative, ds) := match cs with
    | '-' :: ds => (true, ds)
    | '+' :: ds => (false, ds)
    | ds => (false, ds)
  (readUnsigned bits ds).bind (withSign bits negative)

/-- Exponents beyond this many powers of ten decide nothing any more. -/
def exponentCap : Nat := 10000

/-- The value of an exponent's digits, which stops growing at the cap. -/
def exponentFrom (value : Nat) : List Char → Nat
  | [] => value
  | c :: cs =>
    exponentFrom (if value < exponentCap then value * 10 + (c.toNat - '0'.toNat) else value) cs

/-- An exponent mark with its digits, or nothing at all. -/
def readExponent? : List Char → Option Int
  | [] => some 0
  | e :: cs =>
    if e == 'e' || e == 'E' then
      let (negative, ds) := match cs with
        | '-' :: ds => (true, ds)
        | '+' :: ds => (false, ds)
        | ds => (false, ds)
      if ds.isEmpty || !ds.all Char.isDigit then none
      else
        let n : Int := exponentFrom 0 ds
        some (if negative then -n else n)
    else none

/-- A decimal number as it is written, without a sign. -/
structure DecimalText where
  /-- The digits before the point. -/
  whole : List Char
  /-- The digits after the point. -/
  fraction : List Char
  exponent : Int

/-- A decimal number without a sign: digits, a fraction, an exponent. -/
def readDecimal? (cs : List Char) : Option DecimalText := do
  let whole := cs.takeWhile Char.isDigit
  let rest := cs.dropWhile Char.isDigit
  let (fraction, tail) := match rest with
    | '.' :: more => (more.takeWhile Char.isDigit, more.dropWhile Char.isDigit)
    | _ => ([], rest)
  let exponent ← readExponent? tail
  if whole.isEmpty && fraction.isEmpty then none
  else some ⟨whole, fraction, exponent⟩

/-- How many digits before the point count as places. -/
def placeLimit : Nat := 800

/-- How many digits an estimate is made from. -/
def estimateDigits : Nat := 19

namespace DecimalText

/-- The number that the text stands for. -/
def exact (d : DecimalText) : Scientific :=
  ⟨digitsValue (d.whole ++ d.fraction), d.exponent - d.fraction.length⟩

/-- The digits before the point, from the first that is not zero. -/
def places (d : DecimalText) : List Char := d.whole.dropWhile (· == '0')

/-- How many places do not count. -/
def lostPlaces (d : DecimalText) : Nat := d.places.length - placeLimit

/-- Whether the first digits tell the float, for a number of one or more. If digits other than zero
follow, the next number of as many digits has to give the same float. -/
def isEstimated (f : BinaryFormat) (d : DecimalText) : Bool :=
  let digits := d.places ++ d.fraction
  let first := digitsValue (digits.take estimateDigits)
  let exponent : Int := d.places.length + d.exponent - estimateDigits
  let estimate := estimate? f first exponent
  estimate.isSome && ((digits.drop estimateDigits).all (· == '0') ||
    estimate? f (first + 1) exponent == estimate)

/-- The number that the text is taken for. Places beyond the limit are lost unless the first digits
tell the float. -/
def taken (f : BinaryFormat) (d : DecimalText) : Scientific :=
  if d.lostPlaces = 0 then d.exact
  else if d.isEstimated f then d.exact
  else ⟨d.exact.digits, d.exact.exponent - d.lostPlaces⟩

end DecimalText

/-- A float as packed bits, from a decimal number with an optional sign. -/
def readFloat (f : BinaryFormat) (cs : List Char) : Except NumberError Nat :=
  let (negative, body) := match cs with
    | '-' :: body => (true, body)
    | '+' :: body => (false, body)
    | body => (false, body)
  match readDecimal? body with
  | none => .error .syntaxError
  | some d =>
    match f.ofDecimal? (d.taken f).digits (d.taken f).exponent with
    | none => .error .outOfRange
    | some magnitude => .ok (if negative then f.signBit + magnitude else magnitude)

end Savefile.Decimal
