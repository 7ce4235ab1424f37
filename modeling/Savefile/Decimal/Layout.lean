import Savefile.Decimal.Shortest

/-! # Layout of floats as text

A float is written either positionally or with an exponent. A `Layout` says from which
exponents on the second form is used and how wide the exponent is at least.
-/
namespace Savefile.Decimal

/-- The choices of a way to write floats. -/
structure Layout where
  /-- Below this decimal exponent the number gets an exponent. -/
  leastPositional : Int
  /-- From this decimal exponent on the number gets an exponent. -/
  firstScientific : Int
  /-- The least number of digits of a negative exponent. -/
  negativeWidth : Nat

def messageLayout : Layout := ⟨-4, 6, 2⟩

def jsonLayout : Layout := ⟨-6, 21, 1⟩

def digitChars (n : Nat) : List Char := Nat.toDigits 10 n

/-- Pads with zeros on the left. -/
def padLeft (width : Nat) (cs : List Char) : List Char :=
  List.replicate (width - cs.length) '0' ++ cs

/-- Digits with the point after the first `whole` of them. -/
def positional (ds : List Char) (whole : Int) : List Char :=
  if whole ≤ 0 then '0' :: '.' :: (List.replicate (-whole).toNat '0' ++ ds)
  else if (ds.length : Int) ≤ whole then ds ++ List.replicate (whole.toNat - ds.length) '0'
  else ds.take whole.toNat ++ '.' :: ds.drop whole.toNat

/-- Digits with the point after the first of them and an exponent. -/
def scientific (negativeWidth : Nat) (ds : List Char) (exponent : Int) : List Char :=
  let head := match ds with
    | [] => []
    | [d] => [d]
    | d :: rest => d :: '.' :: rest
  let tail :=
    if exponent < 0 then '-' :: padLeft negativeWidth (digitChars (-exponent).toNat)
    else '+' :: padLeft 2 (digitChars exponent.toNat)
  head ++ 'e' :: tail

def Layout.render (l : Layout) (d : Scientific) : List Char :=
  let ds := digitChars d.digits
  if d.digits = 0 then ['0']
  else
    let exponent := d.exponent + ds.length - 1
    if exponent < l.leastPositional || l.firstScientific ≤ exponent then
      scientific l.negativeWidth ds exponent
    else positional ds (exponent + 1)

/-- A float as text: the shortest digits that read back, or the name of a value that is no
finite number. -/
def Layout.write (l : Layout) (f : BinaryFormat) (bits : Nat) : String :=
  let negative := f.signBit ≤ bits
  let magnitude := bits % f.signBit
  if f.infinity < magnitude then "NaN"
  else if magnitude = f.infinity then if negative then "-Inf" else "+Inf"
  else
    let body := l.render (shortest f magnitude)
    String.ofList (if negative then '-' :: body else body)

end Savefile.Decimal
