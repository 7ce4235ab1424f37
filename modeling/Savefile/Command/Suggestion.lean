import Savefile.Text.Utf8

/-! # Suggestions

A name that is not known is compared with those that are: one that it starts, or that few changes
lead to, is suggested. Case does not matter.
-/
namespace Savefile.Command

/-- One row of the table of distances: those of a longer prefix from those of the prefix before it.
`left` is the distance just computed, `corner` the one above it. -/
def distanceRow (b : UInt8) (left corner : Nat) : List UInt8 → List Nat → List Nat
  | a :: as, above :: row =>
    let here := if a == b then corner else min (min above left) corner + 1
    here :: distanceRow b here above as row
  | _, _ => []

/-- How many insertions, removals and replacements lead from one row of bytes to another; `row` has
the distances of the prefixes of `s` from what was read of `t` so far. -/
def distanceFrom (s : List UInt8) (row : List Nat) : List UInt8 → Nat
  | [] => row.getLastD 0
  | b :: bs =>
    match row with
    | [] => 0
    | first :: rest =>
      distanceFrom s ((first + 1) :: distanceRow b (first + 1) first s rest) bs

/-- How many insertions, removals and replacements lead from one row of bytes to another. -/
def distance (s t : List UInt8) : Nat := distanceFrom s (List.range (s.length + 1)) t

def lowerBytes (name : String) : List UInt8 := Text.encode (name.toList.map Char.toLower)

/-- The largest distance at which a name is suggested. -/
def distanceLimit : Nat := 2

/-- Whether a known name is suggested for another. -/
def isSuggested (typed known : String) : Bool :=
  distance (lowerBytes typed) (lowerBytes known) ≤ distanceLimit
    || (lowerBytes typed).isPrefixOf (lowerBytes known)

/-- The known names that are suggested, as text. -/
def suggestions (typed : String) (known : List String) : String :=
  let found := known.filter (isSuggested typed)
  if found.isEmpty then ""
  else "\n\nDid you mean this?\n" ++ String.join (found.map fun name => "\t" ++ name ++ "\n")

end Savefile.Command
