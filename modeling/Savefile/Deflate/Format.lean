import Savefile.Deflate.Code

/-! # The parts of compressed data

Data is a row of blocks. A compressed block is a row of symbols: bytes, an end mark, and lengths of
copies, each with a distance. Lengths and distances stand in ranges, of which the symbol gives the
first and further bits the rest.
-/
namespace Savefile.Deflate

/-- Why bytes are not compressed data. -/
inductive InflateError where
  | endsEarly
  | corrupt
  deriving DecidableEq

/-- The text of the error. -/
def InflateError.message : InflateError → String
  | .endsEarly => "unexpected EOF"
  | .corrupt => "flate: corrupt input"

/-- The symbol that ends a block. -/
def endMark : Nat := 256

/-- The first of each range of lengths, with the number of further bits. -/
def lengthRanges : List (Nat × Nat) :=
  [(3, 0), (4, 0), (5, 0), (6, 0), (7, 0), (8, 0), (9, 0), (10, 0), (11, 1), (13, 1), (15, 1),
    (17, 1), (19, 2), (23, 2), (27, 2), (31, 2), (35, 3), (43, 3), (51, 3), (59, 3), (67, 4),
    (83, 4), (99, 4), (115, 4), (131, 5), (163, 5), (195, 5), (227, 5), (258, 0)]

/-- The first of each range of distances, with the number of further bits. -/
def distanceRanges : List (Nat × Nat) :=
  [(1, 0), (2, 0), (3, 0), (4, 0), (5, 1), (7, 1), (9, 2), (13, 2), (17, 3), (25, 3), (33, 4),
    (49, 4), (65, 5), (97, 5), (129, 6), (193, 6), (257, 7), (385, 7), (513, 8), (769, 8),
    (1025, 9), (1537, 9), (2049, 10), (3073, 10), (4097, 11), (6145, 11), (8193, 12), (12289, 12),
    (16385, 13), (24577, 13)]

/-- The lengths of the symbols' bits where a block has no code of its own. -/
def fixedLengths : List Nat :=
  List.replicate 144 8 ++ List.replicate 112 9 ++ List.replicate 24 7 ++ List.replicate 8 8

/-- The lengths of the distances' bits where a block has no code of its own. -/
def fixedDistanceLengths : List Nat := List.replicate 32 5

/-- The order in which a block gives the lengths of the code for its lengths. -/
def lengthOrder : List Nat :=
  [16, 17, 18, 0, 8, 7, 9, 6, 10, 5, 11, 4, 12, 3, 13, 2, 14, 1, 15]

/-- The codes of a block. -/
structure BlockCodes where
  symbols : Code
  distances : Code
  /-- How many bits there have to be wherever a symbol starts. -/
  least : Nat

end Savefile.Deflate
