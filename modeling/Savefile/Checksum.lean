import Savefile.Bytes.Word
import Savefile.Text.Quoted

/-! # Checksums

Data can be followed by its cyclic redundancy check: the remainder of the data as a polynomial
over two elements, by a generator of degree 32 whose bits are kept in reverse.
-/
namespace Savefile.Checksum

/-- The generator without its leading term, lowest power last. -/
def generator : BitVec 32 := 0xedb88320#32

/-- The remainder one bit further on. -/
def shift (c : BitVec 32) : BitVec 32 :=
  if c.getLsbD 0 then (c >>> 1) ^^^ generator else c >>> 1

/-- The remainder `n` bits further on. -/
def shifts : Nat → BitVec 32 → BitVec 32
  | 0, c => c
  | n + 1, c => shifts n (shift c)

/-- The remainder after one more byte. -/
def step (c : BitVec 32) (b : UInt8) : BitVec 32 := shifts 8 (c ^^^ b.toBitVec.setWidth 32)

def ofBytes (bytes : List UInt8) : BitVec 32 := ~~~(bytes.foldl step (BitVec.allOnes 32))

/-- The number of bytes of a checksum. -/
def size : Nat := 4

def append (bytes : List UInt8) : List UInt8 :=
  bytes ++ Bytes.word .big size (ofBytes bytes).toNat

/-- Why bytes do not end in their checksum. -/
inductive Error where
  | tooShort (length : Nat)
  | mismatch (stored computed : Nat)
  deriving DecidableEq

/-- A checksum as text. -/
def hex (sum : Nat) : String := String.ofList (Text.hexPadded 8 sum)

/-- The text of the error. -/
def Error.message : Error → String
  | .tooShort length =>
    toString length ++ " bytes is too short to hold a checksum: save data checksum mismatch"
  | .mismatch stored computed =>
    "stored " ++ hex stored ++ ", computed " ++ hex computed ++ ": save data checksum mismatch"

/-- The bytes before a checksum, which has to be theirs. -/
def split (data : List UInt8) : Except Error (List UInt8) :=
  if data.length < size then .error (.tooShort data.length)
  else
    let bytes := data.take (data.length - size)
    let stored := Bytes.ofWord .big (data.drop (data.length - size))
    let computed := (ofBytes bytes).toNat
    if computed = stored then .ok bytes else .error (.mismatch stored computed)

end Savefile.Checksum
