import Std.Data.HashMap
import Savefile.Deflate.Format

/-! # Compressing data

Repetitions are found by the last place where the next three bytes stood, and everything is
written with the fixed code in one block. The result is used if it is shorter than the data stored as
it is.
-/
namespace Savefile.Deflate

/-- A part of compressed data. -/
inductive Piece where
  | byte (b : UInt8)
  | copy (length distance : Nat)

/-- The longest block that is stored as it is. -/
def storedLimit : Nat := 65535

def storedBlock (final : Bool) (block : List UInt8) : List UInt8 :=
  let length := block.length
  (if final then 1 else 0)
    :: (length % 256).toUInt8 :: (length / 256).toUInt8
    :: ((storedLimit - length) % 256).toUInt8 :: ((storedLimit - length) / 256).toUInt8 :: block

/-- Data in blocks that are stored as they are; no more than `more` before the last. -/
def storedBlocks : Nat → List UInt8 → List UInt8
  | 0, data => storedBlock true data
  | more + 1, data =>
    if data.length ≤ storedLimit then storedBlock true data
    else storedBlock false (data.take storedLimit) ++ storedBlocks more (data.drop storedLimit)

def store (data : List UInt8) : List UInt8 := storedBlocks (data.length / storedLimit) data

/-- The longest copy. -/
def copyLimit : Nat := 258

/-- The farthest distance of a copy. -/
def distanceReach : Nat := 32768

/-- How many bytes from two places on are equal, up to a limit. -/
def commonLength (data : Array UInt8) (i j : Nat) : Nat → Nat
  | 0 => 0
  | limit + 1 =>
    match data[i]?, data[j]? with
    | some a, some b => if a == b then commonLength data (i + 1) (j + 1) limit + 1 else 0
    | _, _ => 0

/-- The three bytes from a place on, as one number. -/
def threeBytes? (data : Array UInt8) (i : Nat) : Option Nat := do
  let a ← data[i]?
  let b ← data[i + 1]?
  let c ← data[i + 2]?
  some (a.toNat + 256 * b.toNat + 65536 * c.toNat)

/-- Takes data apart from a place on; `steps` bounds the number of parts. -/
def pieces (data : Array UInt8) :
    Nat → Nat → Std.HashMap Nat Nat → Array Piece → Array Piece
  | 0, _, _, found => found
  | steps + 1, i, places, found =>
    match data[i]? with
    | none => found
    | some b =>
      match threeBytes? data i with
      | none => pieces data steps (i + 1) places (found.push (.byte b))
      | some key =>
        let known := places[key]?
        let places := places.insert key i
        match known with
        | none => pieces data steps (i + 1) places (found.push (.byte b))
        | some j =>
          let length := commonLength data i j copyLimit
          if 3 ≤ length ∧ i - j ≤ distanceReach then
            pieces data steps (i + length) places (found.push (.copy length (i - j)))
          else pieces data steps (i + 1) places (found.push (.byte b))

/-- The bits of a symbol in the fixed code. -/
def fixedBits (sym : Nat) : List Bool :=
  if sym < 144 then (bitsOf 8 (0x30 + sym)).reverse
  else if sym < 256 then (bitsOf 9 (0x190 + (sym - 144))).reverse
  else if sym < 280 then (bitsOf 7 (sym - 256)).reverse
  else (bitsOf 8 (0xc0 + (sym - 280))).reverse

/-- The last range that starts no later than a number, with its place, counted from `i`. -/
def rangeOf (n i : Nat) (found : Nat × Nat × Nat) : List (Nat × Nat) → Nat × Nat × Nat
  | [] => found
  | (first, width) :: rest =>
    if first ≤ n then rangeOf n (i + 1) (i, first, width) rest else found

/-- The bits of a part. -/
def pieceBits : Piece → List Bool
  | .byte b => fixedBits b.toNat
  | .copy length distance =>
    let (i, first, width) := rangeOf length 0 (0, 3, 0) lengthRanges
    let (j, start, more) := rangeOf distance 0 (0, 1, 0) distanceRanges
    fixedBits (endMark + 1 + i) ++ bitsOf width (length - first) ++ (bitsOf 5 j).reverse
      ++ bitsOf more (distance - start)

/-- Data in one block with the fixed code. -/
def compressFixed (data : List UInt8) : List UInt8 :=
  let found := pieces data.toArray data.length 0 ∅ #[]
  let bits := true :: true :: false :: (found.toList.flatMap pieceBits ++ fixedBits endMark)
  pack bits

/-- Compresses data. -/
def deflate (data : List UInt8) : List UInt8 :=
  let compressed := compressFixed data
  let stored := store data
  if compressed.length < stored.length then compressed else stored

end Savefile.Deflate
