import Savefile.Schema.Error
import Savefile.Text.Space

/-! # Spellings of types

A type may be written inside markers that repeat what the field says elsewhere: `[]T` and
`Vec<T>` for a list, `?T` and `Option<T>` for a conditional value. White space around each
level is ignored. A list marker stands outside a conditional one.
-/
namespace Savefile.Schema

/-- A marker around a type. -/
inductive Marker where
  | array
  | nullable
  deriving DecidableEq

/-- What is left of a text after its start. -/
def afterStart? (start cs : List Char) : Option (List Char) :=
  if start.isPrefixOf cs then some (cs.drop start.length) else none

/-- What stands between a start and a closing angle bracket. -/
def between? (start cs : List Char) : Option (List Char) :=
  (afterStart? start cs).bind fun rest =>
    if rest.getLast? == some '>' then some rest.dropLast else none

/-- The outermost marker of a text, and what it stands around. -/
def outerMarker? (cs : List Char) : Option (Marker × List Char) :=
  match afterStart? ['[', ']'] cs with
  | some rest => some (.array, rest)
  | none =>
    match afterStart? ['?'] cs with
    | some rest => some (.nullable, rest)
    | none =>
      match between? "Vec<".toList cs with
      | some rest => some (.array, rest)
      | none => (between? "Option<".toList cs).map fun rest => (.nullable, rest)

theorem length_trimChars_le (cs : List Char) : (Text.trimChars cs).length ≤ cs.length := by
  unfold Text.trimChars
  rw [List.length_reverse]
  refine Nat.le_trans (List.dropWhile_sublist _).length_le ?_
  rw [List.length_reverse]
  exact (List.dropWhile_sublist _).length_le

theorem length_afterStart?_lt {start cs rest : List Char} (hs : start ≠ [])
    (h : afterStart? start cs = some rest) : rest.length < cs.length := by
  unfold afterStart? at h
  split at h
  · rename_i hp
    obtain ⟨t, rfl⟩ := List.isPrefixOf_iff_prefix.mp hp
    simp only [List.drop_left, Option.some.injEq] at h
    subst h
    have : 0 < start.length := List.length_pos_iff.mpr hs
    simp only [List.length_append]
    omega
  · simp at h

theorem length_between?_lt {start cs rest : List Char} (hs : start ≠ [])
    (h : between? start cs = some rest) : rest.length < cs.length := by
  unfold between? at h
  cases ha : afterStart? start cs with
  | none => simp [ha] at h
  | some r =>
    have := length_afterStart?_lt hs ha
    simp only [ha, Option.bind_some] at h
    split at h
    · simp only [Option.some.injEq] at h
      subst h
      simp only [List.length_dropLast]
      omega
    · simp at h

/-- Inside a marker there is less text. -/
theorem length_outerMarker?_lt {cs rest : List Char} {m : Marker}
    (h : outerMarker? cs = some (m, rest)) : rest.length < cs.length := by
  unfold outerMarker? at h
  split at h
  · rename_i ha
    simp only [Option.some.injEq, Prod.mk.injEq] at h
    exact h.2 ▸ length_afterStart?_lt (by simp) ha
  · split at h
    · rename_i ha
      simp only [Option.some.injEq, Prod.mk.injEq] at h
      exact h.2 ▸ length_afterStart?_lt (by simp) ha
    · split at h
      · rename_i hb
        simp only [Option.some.injEq, Prod.mk.injEq] at h
        exact h.2 ▸ length_between?_lt (by decide) hb
      · obtain ⟨r, hb, hr⟩ := Option.map_eq_some_iff.mp h
        simp only [Prod.mk.injEq] at hr
        exact hr.2 ▸ length_between?_lt (by decide) hb

/-- The markers around a type, outermost first, and the type inside them. -/
def stripMarkers (cs : List Char) : List Marker × List Char :=
  match _h : outerMarker? (Text.trimChars cs) with
  | none => ([], Text.trimChars cs)
  | some (m, rest) =>
    let (markers, base) := stripMarkers rest
    (m :: markers, base)
termination_by cs.length
decreasing_by
  exact Nat.lt_of_lt_of_le (length_outerMarker?_lt _h) (length_trimChars_le cs)

/-- The most markers that a type may have. -/
def markerLimit : Nat := 2

/-- The markers of a type and its base name. -/
def splitMarkers (text : String) : Except SchemaProblem (List Marker × String) :=
  let (markers, base) := stripMarkers text.toList
  if markerLimit < markers.length then .error .tooManyMarkers
  else .ok (markers, String.ofList base)

/-- What is wrong with the markers of a field, after the marker that stands before them. -/
def markersFault? (conditional repeats : Bool) : Option Marker → List Marker → Option SchemaProblem
  | _, [] => none
  | before, .array :: rest =>
    if !repeats then some .arrayNeedsRepeat
    else if before.isSome then some .arrayNotOutermost
    else markersFault? conditional repeats (some .array) rest
  | before, .nullable :: rest =>
    if !conditional then some .nullableNeedsIf
    else if before == some .nullable then some .duplicateNullable
    else markersFault? conditional repeats (some .nullable) rest

end Savefile.Schema
