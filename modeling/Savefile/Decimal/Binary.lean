/-! # Binary floating point

A finite float is `m * 2 ^ e`, packed as a sign, an exponent field and a fraction. Without the
sign the packed number rises with the value, so rounding a fraction to the nearest float is one
division, and the carry into the exponent field comes out by itself.
-/
namespace Savefile.Decimal

/-- The width of the two fields below the sign. -/
structure BinaryFormat where
  fractionBits : Nat
  exponentBits : Nat

namespace BinaryFormat

/-- Four bytes. -/
def single : BinaryFormat := ⟨23, 8⟩

/-- Eight bytes. -/
def double : BinaryFormat := ⟨52, 11⟩

/-- The weight of the lowest bit of the smallest floats, as a power of two. -/
def leastExponent (f : BinaryFormat) : Int :=
  2 - (Nat.pow 2 (f.exponentBits - 1) : Nat) - f.fractionBits

/-- The packed magnitude of infinity; greater magnitudes are not numbers. -/
def infinity (f : BinaryFormat) : Nat := (Nat.pow 2 f.exponentBits - 1) * Nat.pow 2 f.fractionBits

/-- The magnitude of the canonical quiet value that is not a number. -/
def quietNaN (f : BinaryFormat) : Nat := f.infinity + Nat.pow 2 (f.fractionBits - 1)

def signBit (f : BinaryFormat) : Nat := Nat.pow 2 (f.exponentBits + f.fractionBits)

def significand (f : BinaryFormat) (magnitude : Nat) : Nat :=
  if magnitude < Nat.pow 2 f.fractionBits then magnitude
  else magnitude % Nat.pow 2 f.fractionBits + Nat.pow 2 f.fractionBits

/-- The weight of the significand's lowest bit, as a power of two. -/
def exponent (f : BinaryFormat) (magnitude : Nat) : Int :=
  f.leastExponent + ((magnitude / Nat.pow 2 f.fractionBits - 1 : Nat) : Int)

end BinaryFormat

/-- A positive quotient of two numbers. -/
structure Ratio where
  num : Nat
  den : Nat

namespace Ratio

/-- `r * b ^ e`. -/
def scale (r : Ratio) (b : Nat) (e : Int) : Ratio :=
  if 0 ≤ e then ⟨r.num * Nat.pow b e.toNat, r.den⟩ else ⟨r.num, r.den * Nat.pow b (-e).toNat⟩

/-- The greatest whole number that is not above `r`. -/
def floor (r : Ratio) : Nat := r.num / r.den

/-- The nearest whole number; a half goes to the even neighbour. -/
def nearest (r : Ratio) : Nat :=
  let q := r.num / r.den
  let rest := 2 * (r.num % r.den)
  if r.den < rest || (rest == r.den && q % 2 == 1) then q + 1 else q

/-- The greatest `k` with `2 ^ k ≤ r`, for a positive `r`. -/
def log2 (r : Ratio) : Int :=
  let k : Int := (r.num.log2 : Int) - r.den.log2
  if 1 ≤ (r.scale 2 (-k)).floor then k else k - 1

/-- The greatest `k` with `10 ^ k ≤ r`, for a positive `r`. -/
def log10 (r : Ratio) : Int :=
  if r.den ≤ r.num then ((Nat.toDigits 10 r.floor).length : Int) - 1
  else
    let t := (Nat.toDigits 10 (r.den / r.num)).length
    if r.den ≤ r.num * Nat.pow 10 (t - 1) then 1 - (t : Int) else -(t : Int)

end Ratio

namespace BinaryFormat

/-- The value of a finite magnitude. -/
def toRatio (f : BinaryFormat) (magnitude : Nat) : Ratio :=
  Ratio.scale ⟨f.significand magnitude, 1⟩ 2 (f.exponent magnitude)

/-- The packed magnitude of the float nearest to `r`, a half going to the even neighbour. An
answer of `f.infinity` or more means that `r` is out of range. -/
def ofRatio (f : BinaryFormat) (r : Ratio) : Nat :=
  if r.num = 0 then 0
  else
    let e := max f.leastExponent (r.log2 - f.fractionBits)
    (e - f.leastExponent).toNat * Nat.pow 2 f.fractionBits + (r.scale 2 (-e)).nearest

/-- The float nearest to `digits * 10 ^ exponent`, unless it is out of range. -/
def ofDecimal? (f : BinaryFormat) (digits : Nat) (exponent : Int) : Option Nat :=
  let magnitude := f.ofRatio (Ratio.scale ⟨digits, 1⟩ 10 exponent)
  if magnitude < f.infinity then some magnitude else none

end BinaryFormat

end Savefile.Decimal
