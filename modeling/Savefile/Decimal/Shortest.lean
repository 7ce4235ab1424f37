import Savefile.Decimal.Binary

/-! # Shortest decimals

A float is written with the fewest digits that read back as the same float. For each number of
digits the two neighbours of the value on that decimal grid are read back; the first grid with
a hit wins, and of two hits the nearer. Should no short grid serve, all digits are written,
so that the result always reads back.
-/
namespace Savefile.Decimal

/-- A decimal number `digits * 10 ^ exponent`. -/
structure Scientific where
  digits : Nat
  exponent : Int

namespace Scientific

/-- Drops zeros at the end of the digits. -/
def stripZeros : Nat → Scientific → Scientific
  | 0, d => d
  | fuel + 1, d =>
    if d.digits % 10 == 0 && d.digits != 0 then stripZeros fuel ⟨d.digits / 10, d.exponent + 1⟩
    else d

/-- Whether `d` is read as the float of the given magnitude. -/
def readsAs (f : BinaryFormat) (magnitude : Nat) (d : Scientific) : Bool :=
  f.ofDecimal? d.digits d.exponent == some magnitude

end Scientific

/-- The neighbour of `value` on the grid of multiples of `10 ^ k` that reads back, if any. -/
def gridHit? (f : BinaryFormat) (magnitude : Nat) (value : Ratio) (k : Int) : Option Scientific :=
  let scaled := value.scale 10 (-k)
  let below : Scientific := ⟨scaled.floor, k⟩
  let above : Scientific := ⟨scaled.floor + 1, k⟩
  match below.readsAs f magnitude, above.readsAs f magnitude with
  | true, true => some (if 2 * (scaled.num % scaled.den) ≤ scaled.den then below else above)
  | true, false => some below
  | false, true => some above
  | false, false => none

/-- Every digit of a finite magnitude. -/
def exactDecimal (f : BinaryFormat) (magnitude : Nat) : Scientific :=
  let e := f.exponent magnitude
  if 0 ≤ e then ⟨f.significand magnitude * Nat.pow 2 e.toNat, 0⟩
  else ⟨f.significand magnitude * Nat.pow 5 (-e).toNat, e⟩

/-- Enough digits to tell any two floats of eight bytes apart. -/
def mostDigits : Nat := 17

/-- The fewest digits that read back as a finite magnitude. -/
def shortest (f : BinaryFormat) (magnitude : Nat) : Scientific :=
  if magnitude = 0 then ⟨0, 0⟩
  else
    let value := f.toRatio magnitude
    let top := value.log10
    let grids := (List.range mostDigits).map fun (n : Nat) => top - n
    let hit := grids.findSome? (gridHit? f magnitude value)
    (hit.getD (exactDecimal f magnitude)).stripZeros mostDigits

end Savefile.Decimal
