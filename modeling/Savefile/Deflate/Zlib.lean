import Savefile.Bytes.Word
import Savefile.Deflate.Deflate
import Savefile.Deflate.Inflate

/-! # Compressed streams

A stream has two bytes in front that tell the method and check themselves, and four behind that
check the expanded data. Bytes after it are not looked at.
-/
namespace Savefile.Deflate

/-- Why bytes are no stream. -/
inductive StreamError where
  | inflate (e : InflateError)
  | header
  | dictionary
  | checksum
  deriving DecidableEq

/-- The text of the error. -/
def StreamError.message : StreamError → String
  | .inflate e => e.message
  | .header => "zlib: invalid header"
  | .dictionary => "zlib: invalid dictionary"
  | .checksum => "zlib: invalid checksum"

/-- The modulus of the sums that check expanded data. -/
def sumModulus : Nat := 65521

/-- The sum of the bytes and the sum of those sums, both with a modulus. -/
def sumsOf (bytes : List UInt8) : Nat × Nat :=
  bytes.foldl
    (fun (low, high) b =>
      let low := (low + b.toNat) % sumModulus
      (low, (high + low) % sumModulus))
    (1, 0)

/-- The number that checks expanded data. -/
def sumCheck (bytes : List UInt8) : Nat :=
  let (low, high) := sumsOf bytes
  high * 65536 + low

/-- The two bytes in front of a stream: the method with the largest window, the usual effort. -/
def streamHeader : List UInt8 := [0x78, 0x9c]

/-- Whether two bytes start a stream. Every window is taken to be the largest. -/
def isHeader (a b : UInt8) : Bool :=
  a.toNat % 16 == 8 && (a.toNat * 256 + b.toNat) % 31 == 0

/-- Whether a stream with this second byte wants a dictionary. -/
def wantsDictionary (b : UInt8) : Bool := b.toNat.testBit 5

/-- The compressed data after the first two bytes. A dictionary that is wanted has to be the empty
one. -/
def afterDictionary (wanted : Bool) (bytes : List UInt8) : Except StreamError (List UInt8) :=
  if !wanted then .ok bytes
  else if (bytes.take 4).length < 4 then .error (.inflate .endsEarly)
  else if Bytes.ofWord .big (bytes.take 4) ≠ sumCheck [] then .error .dictionary
  else .ok (bytes.drop 4)

def toStream (data : List UInt8) : List UInt8 :=
  streamHeader ++ deflate data ++ Bytes.word .big 4 (sumCheck data)

/-- Expands a stream. -/
def ofStream (bytes : List UInt8) : Except StreamError (List UInt8) :=
  match bytes with
  | a :: b :: rest => do
    if !isHeader a b then .error .header
    let compressed ← afterDictionary (wantsDictionary b) rest
    let (data, rest) ← (inflate compressed).mapError .inflate
    let check := rest.take 4
    if check.length < 4 then .error (.inflate .endsEarly)
    else if Bytes.ofWord .big check ≠ sumCheck data then .error .checksum
    else .ok data
  | _ => .error (.inflate .endsEarly)

end Savefile.Deflate
