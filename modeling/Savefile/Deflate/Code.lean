import Savefile.Deflate.Bits

/-! # Prefix codes

A code gives each symbol a row of bits, none of which starts another. It is determined by the
lengths alone: shorter rows come before longer ones, and among equal lengths the symbols are in
order. A code is a tree whose leaves are the symbols.
-/
namespace Savefile.Deflate

/-- A prefix code. -/
inductive Code where
  /-- No symbol has these bits. -/
  | unused
  | symbol (n : Nat)
  | choice (zero one : Code)

namespace Code

/-- Gives a symbol its bits. -/
def insert (sym : Nat) : List Bool → Code → Code
  | [], _ => .symbol sym
  | bit :: bits, code =>
    let (zero, one) := match code with
      | .choice zero one => (zero, one)
      | _ => (.unused, .unused)
    if bit then .choice zero (insert sym bits one) else .choice (insert sym bits zero) one

/-- Gives the symbols of one length their bits, the first of which are a number. -/
def insertAll (length : Nat) : List Nat → Nat → Code → Code
  | [], _, code => code
  | sym :: syms, first, code =>
    insertAll length syms (first + 1) (code.insert sym (bitsOf length first).reverse)

def symbolsOf (lengths : List Nat) (length : Nat) : List Nat :=
  (lengths.zipIdx.filter fun (n, _) => n == length).map Prod.snd

/-- The longest length that a code may have. -/
def lengthLimit : Nat := 15

/-- Gives all symbols of at least a length their bits. -/
def assign (lengths : List Nat) : List Nat → Nat → Code → Code
  | [], _, code => code
  | length :: more, first, code =>
    let syms := symbolsOf lengths length
    assign lengths more (2 * (first + syms.length)) (insertAll length syms first code)

/-- How much of the rows of bits of a length the symbols use up. -/
def used (lengths : List Nat) (longest : Nat) : Nat :=
  lengths.foldl (fun sum n => if n = 0 then sum else sum + Nat.pow 2 (longest - n)) 0

/-- Whether lengths use up all rows of bits; a single symbol of length one need not. -/
def isComplete (lengths : List Nat) : Bool :=
  let longest := lengths.foldl max 0
  let sum := used lengths longest
  longest == 0 || sum == Nat.pow 2 longest || (sum == 1 && longest == 1)

/-- The code with the given lengths, if there is one; a symbol of length zero has no bits. -/
def ofLengths? (lengths : List Nat) : Option Code :=
  if isComplete lengths then
    some (assign lengths ((List.range lengthLimit).map (· + 1)) 0 .unused)
  else none

end Code

end Savefile.Deflate
