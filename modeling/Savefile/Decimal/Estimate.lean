import Savefile.Decimal.Binary

/-! # Rounding with leading bits

A number of at most 64 bits times a power of ten can often be rounded with the leading bits of the
power alone. There is no estimate where the product comes so close to a boundary that the bits left
out could matter, and none for a float that is not a normal one.
-/
namespace Savefile.Decimal

/-- Whether the leading bits of a power of ten are at hand. -/
def hasLeadingBits (exponent : Int) : Bool := -348 ≤ exponent && exponent ≤ 347

/-- The first 128 bits of a power of ten. -/
def leadingBits (exponent : Int) : Nat :=
  let power := Ratio.scale ⟨1, 1⟩ 10 exponent
  (power.scale 2 (127 - power.log2)).floor

/-- The product of a number of 64 bits with a power of ten, up to a power of two, in 128 bits. The
first 64 bits of the power are enough unless those left out could carry into the bits above the
lowest `spare`; if even 128 bits are not enough, there is no product. -/
def leadingProduct? (spare n power : Nat) : Option Nat :=
  let word := Nat.pow 2 64
  let unit := Nat.pow 2 spare
  let product := n * (power / word)
  if product % unit + n < unit then some product
  else
    let low := n * (power % word)
    let product := product + low / word
    if product % unit + 1 = unit && word ≤ low % word + n then none else some product

/-- The packed magnitude of the float nearest to `digits * 10 ^ exponent`, where it can be told from
leading bits. -/
def estimate? (f : BinaryFormat) (digits : Nat) (exponent : Int) : Option Nat := do
  if digits = 0 then return 0
  if !hasLeadingBits exponent then none
  -- the bits of the product that stand below the significand and the bit after it
  let spare := 64 + (61 - f.fractionBits)
  let shift := 63 - digits.log2
  let product ← leadingProduct? spare (digits * Nat.pow 2 shift) (leadingBits exponent)
  let top := product / Nat.pow 2 127
  let significand := product / Nat.pow 2 (spare + top)
  -- half way between two floats the bits that are left out decide
  if product % Nat.pow 2 spare = 0 && significand % 4 = 1 then none
  let weight := (Ratio.scale ⟨1, 1⟩ 10 exponent).log2 + top + (63 - shift : Nat)
  let magnitude :=
    (weight - f.fractionBits - f.leastExponent) * Nat.pow 2 f.fractionBits +
      (significand + significand % 2) / 2
  if Nat.pow 2 f.fractionBits ≤ magnitude && magnitude < f.infinity then some magnitude.toNat
  else none

end Savefile.Decimal
