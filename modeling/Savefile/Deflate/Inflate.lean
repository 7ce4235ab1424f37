import Savefile.Deflate.Format

/-! # Expanding compressed data

Blocks are read one after the other up to the last. A copy repeats what was written before, and
may run into what it writes itself.
-/
namespace Savefile.Deflate

/-- Takes a number of `width` bits. -/
def takeBits (width : Nat) (s : BitSource) : Except InflateError (Nat × BitSource) :=
  match s.take? width with
  | some r => .ok r
  | none => .error .endsEarly

/-- Takes the bits of a symbol. -/
def Code.take : Code → BitSource → Except InflateError (Nat × BitSource)
  | .symbol n, s => .ok (n, s)
  | .unused, _ => .error .corrupt
  | .choice zero one, s =>
    match s.next? with
    | none => .error .endsEarly
    | some (true, s) => one.take s
    | some (false, s) => zero.take s

/-- The code with the given lengths; there has to be one. -/
def codeOf (lengths : List Nat) : Except InflateError Code :=
  match Code.ofLengths? lengths with
  | some code => .ok code
  | none => .error .corrupt

/-- The codes of a block that has none of its own. -/
def fixedCodes : Except InflateError BlockCodes := do
  let symbols ← codeOf fixedLengths
  let distances ← codeOf fixedDistanceLengths
  .ok ⟨symbols, distances, 0⟩

/-- Takes `count` numbers of three bits. -/
def takeTriples : Nat → BitSource → Except InflateError (List Nat × BitSource)
  | 0, s => .ok ([], s)
  | count + 1, s => do
    let (n, s) ← takeBits 3 s
    let (ns, s) ← takeTriples count s
    .ok (n :: ns, s)

/-- How a repeated length is given: the length, the fewest repetitions, the further bits. -/
def repeatRule (sym : Nat) (previous : Option Nat) : Except InflateError (Nat × Nat × Nat) :=
  if sym = 16 then
    match previous with
    | some length => .ok (length, 3, 2)
    | none => .error .corrupt
  else if sym = 17 then .ok (0, 3, 3)
  else .ok (0, 11, 7)

/-- Takes lengths until there are `count`; those read before are newest first. Each step adds one
at least, so `count` steps are enough. -/
def takeLengths (code : Code) (count : Nat) :
    Nat → List Nat → BitSource → Except InflateError (List Nat × BitSource)
  | 0, lengths, s => .ok (lengths.reverse, s)
  | steps + 1, lengths, s =>
    if count ≤ lengths.length then .ok (lengths.reverse, s)
    else do
      let (sym, s) ← code.take s
      if sym < 16 then takeLengths code count steps (sym :: lengths) s
      else
        let (length, fewest, width) ← repeatRule sym lengths.head?
        let (more, s) ← takeBits width s
        if count < lengths.length + (fewest + more) then .error .corrupt
        else takeLengths code count steps (List.replicate (fewest + more) length ++ lengths) s

/-- How many lengths the symbols of a block may have. -/
def symbolLimit : Nat := 286

/-- How many lengths the distances of a block may have. -/
def distanceLimit : Nat := 30

/-- Takes the codes of a block. Wherever a symbol starts there are bits for the end mark and, if
another block follows, for the smallest one. -/
def takeCodes (final : Bool) (s : BitSource) : Except InflateError (BlockCodes × BitSource) := do
  let (header, s) ← takeBits 14 s
  let symbolCount := header % 32 + 257
  let distanceCount := header / 32 % 32 + 1
  let tripleCount := header / 1024 + 4
  if symbolLimit < symbolCount || distanceLimit < distanceCount then .error .corrupt
  else
    let (triples, s) ← takeTriples tripleCount s
    let pairs := lengthOrder.zip triples
    let lengthCode ← codeOf ((List.range 19).map fun sym => (pairs.lookup sym).getD 0)
    let count := symbolCount + distanceCount
    let (lengths, s) ← takeLengths lengthCode count count [] s
    let symbolLengths := lengths.take symbolCount
    let symbols ← codeOf symbolLengths
    let distances ← codeOf (lengths.drop symbolCount)
    let shortest := ((symbolLengths.filter (0 < ·)).min?).getD 0
    let least := max shortest (symbolLengths[endMark]?.getD 0) + (if final then 0 else 10)
    .ok (⟨symbols, distances, least⟩, s)

/-- Takes a number that stands in a range. -/
def takeRanged (ranges : List (Nat × Nat)) (i : Nat) (s : BitSource) :
    Except InflateError (Nat × BitSource) :=
  match ranges[i]? with
  | none => .error .corrupt
  | some (first, width) => do
    let (more, s) ← takeBits width s
    .ok (first + more, s)

/-- Repeats what was written `distance` bytes before, `length` times. -/
def copyBack (distance : Nat) : Nat → Array UInt8 → Array UInt8
  | 0, out => out
  | length + 1, out => copyBack distance length (out.push (out[out.size - distance]?.getD 0))

/-- Expands the symbols of a block. Each takes one bit at least, so there are no more steps than
bits. -/
def expandSymbols (codes : BlockCodes) :
    Nat → Array UInt8 → BitSource → Except InflateError (Array UInt8 × BitSource)
  | 0, _, _ => .error .endsEarly
  | steps + 1, out, s =>
    if !s.holds codes.least then .error .endsEarly
    else do
      let (sym, s) ← codes.symbols.take s
      if sym < endMark then expandSymbols codes steps (out.push sym.toUInt8) s
      else if sym = endMark then .ok (out, s)
      else
        let (length, s) ← takeRanged lengthRanges (sym - (endMark + 1)) s
        let (distanceSym, s) ← codes.distances.take s
        let (distance, s) ← takeRanged distanceRanges distanceSym s
        if out.size < distance then .error .corrupt
        else expandSymbols codes steps (copyBack distance length out) s

/-- Copies a block that is not compressed. It starts with the next byte: its length, the length's
complement, and its bytes. -/
def expandStored (out : Array UInt8) (s : BitSource) :
    Except InflateError (Array UInt8 × BitSource) :=
  match s.bytes with
  | a :: b :: c :: d :: bytes =>
    let length := a.toNat + 256 * b.toNat
    if c.toNat + 256 * d.toNat ≠ 65535 - length then .error .corrupt
    else
      let block := bytes.take length
      if block.length < length then .error .endsEarly
      else .ok (out ++ block, ⟨[], bytes.drop length⟩)
  | _ => .error .endsEarly

/-- Expands blocks up to the last. Each takes three bits at least, so there are no more steps than
bits. -/
def expandBlocks :
    Nat → Array UInt8 → BitSource → Except InflateError (Array UInt8 × BitSource)
  | 0, _, _ => .error .endsEarly
  | steps + 1, out, s => do
    let (header, s) ← takeBits 3 s
    let final := header % 2 == 1
    let (out, s) ←
      match header / 2 with
      | 0 => expandStored out s
      | 1 =>
        let codes ← fixedCodes
        expandSymbols codes (s.size + 1) out s
      | 2 =>
        let (codes, s) ← takeCodes final s
        expandSymbols codes (s.size + 1) out s
      | _ => .error .corrupt
    if final then .ok (out, s) else expandBlocks steps out s

/-- Expands compressed data, and gives the bytes that follow it. -/
def inflate (bytes : List UInt8) : Except InflateError (List UInt8 × List UInt8) := do
  let s := BitSource.ofBytes bytes
  let (out, s) ← expandBlocks (s.size + 1) #[] s
  .ok (out.toList, s.bytes)

end Savefile.Deflate
