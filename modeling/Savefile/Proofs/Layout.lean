import Mathlib.Data.List.Forall2
import Savefile.Codec.Context
import Savefile.Proofs.Scalar

/-!
# The layout of values

A value takes up a row of cells, one for each of its bytes. A cell says which byte is written there
and which bytes are read back as the same value: the very byte for a part of a number, any byte that
is zero or any that is not for a truth value, and every byte for the room of an absent value.
-/
namespace Savefile

/-- One byte of a record. -/
inductive Cell where
  | fixed (b : UInt8)
  | truth (t : Bool)
  | room
  deriving DecidableEq

namespace Cell

/-- The byte that is written in a cell. -/
def byte : Cell → UInt8
  | .fixed b => b
  | .truth t => if t then 1 else 0
  | .room => 0

/-- Whether a byte is read as what the cell holds. -/
def Admits : Cell → UInt8 → Prop
  | .fixed b, x => x = b
  | .truth t, x => (x != 0) = t
  | .room, _ => True

/-- The byte that a byte becomes when the cell it was read from is written again. -/
def settle : Cell → UInt8 → UInt8
  | .fixed _, x => x
  | .truth _, x => if x = 0 then 0 else 1
  | .room, _ => 0

theorem admits_byte (k : Cell) : k.Admits k.byte := by
  cases k with
  | fixed b => rfl
  | truth t => cases t <;> rfl
  | room => trivial

theorem Admits.settle_eq {k : Cell} {x : UInt8} (h : k.Admits x) : k.settle x = k.byte := by
  cases k with
  | fixed b => exact h
  | truth t =>
    have ht : (x != 0) = t := h
    subst ht
    by_cases hx : x = 0 <;> simp [settle, byte, hx]
  | room => rfl

end Cell

/-- Whether bytes are read as what the cells hold. -/
def Spells (cells : List Cell) (bytes : List UInt8) : Prop := List.Forall₂ Cell.Admits cells bytes

namespace Spells

variable {cells cells' : List Cell} {bytes bytes' : List UInt8}

theorem length_eq (h : Spells cells bytes) : bytes.length = cells.length :=
  (List.Forall₂.length_eq h).symm

theorem append (h : Spells cells bytes) (h' : Spells cells' bytes') :
    Spells (cells ++ cells') (bytes ++ bytes') := List.rel_append h h'

/-- Bytes for two rows of cells are bytes for the first, then bytes for the second. -/
theorem split (h : Spells (cells ++ cells') bytes) :
    ∃ b b', bytes = b ++ b' ∧ Spells cells b ∧ Spells cells' b' := by
  refine ⟨bytes.take cells.length, bytes.drop cells.length, (List.take_append_drop _ _).symm, ?_, ?_⟩
  · have ht := List.forall₂_take cells.length h
    rwa [List.take_left] at ht
  · have hd := List.forall₂_drop cells.length h
    rwa [List.drop_left] at hd

theorem nil_iff : Spells [] bytes ↔ bytes = [] := List.forall₂_nil_left_iff

/-- Cells are spelled by the bytes that are written in them. -/
theorem written (cells : List Cell) : Spells cells (cells.map Cell.byte) := by
  induction cells with
  | nil => exact .nil
  | cons k cells ih => exact .cons k.admits_byte ih

theorem zipWith_settle (h : Spells cells bytes) :
    List.zipWith Cell.settle cells bytes = cells.map Cell.byte := by
  induction h with
  | nil => rfl
  | cons hk _ ih => rw [List.zipWith_cons_cons, List.map_cons, hk.settle_eq, ih]

theorem room {n : Nat} (h : bytes.length = n) : Spells (List.replicate n .room) bytes := by
  subst h
  induction bytes with
  | nil => exact .nil
  | cons b bytes ih => exact .cons trivial ih

end Spells

/-- The cells of a scalar. -/
def Scalar.cells (order : ByteOrder) : Scalar → List Cell
  | .bool b => [.truth b]
  | s => (s.encode order).map .fixed

namespace Scalar

theorem cells_of_ne_bool (order : ByteOrder) {s : Scalar} (h : s.kind ≠ .bool) :
    s.cells order = (s.encode order).map .fixed := by
  cases s <;> first | rfl | exact absurd rfl h

@[simp] theorem length_cells (order : ByteOrder) (s : Scalar) :
    (s.cells order).length = s.kind.width := by
  by_cases h : s.kind = .bool
  · cases s <;> first | rfl | cases h
  · rw [cells_of_ne_bool order h, List.length_map, length_encode]

theorem map_byte_cells (order : ByteOrder) (s : Scalar) :
    (s.cells order).map Cell.byte = s.encode order := by
  by_cases h : s.kind = .bool
  · cases s with
    | bool b => cases order <;> cases b <;> rfl
    | _ => cases h
  · simp [cells_of_ne_bool order h, Function.comp_def, Cell.byte]

theorem spells_fixed {bs bytes : List UInt8} : Spells (bs.map .fixed) bytes ↔ bytes = bs := by
  induction bs generalizing bytes with
  | nil => exact Spells.nil_iff
  | cons b bs ih =>
    cases bytes with
    | nil => simp [Spells]
    | cons x bytes =>
      have h : Spells ((b :: bs).map .fixed) (x :: bytes) ↔
          x = b ∧ Spells (bs.map .fixed) bytes := List.forall₂_cons
      rw [h, ih, List.cons.injEq]

/-- The bytes that spell a scalar are those of its width that are read as it. -/
theorem spells_cells_iff (order : ByteOrder) (s : Scalar) (bytes : List UInt8) :
    Spells (s.cells order) bytes ↔
      bytes.length = s.kind.width ∧ decode order s.kind bytes = s := by
  by_cases h : s.kind = .bool
  · cases s with
    | bool b =>
      match bytes with
      | [] => simp [cells, Spells, kind, Primitive.width]
      | [x] => simp [cells, Spells, kind, Primitive.width, Cell.Admits, decode_bool]
      | _ :: _ :: _ => simp [cells, Spells, kind, Primitive.width]
    | _ => cases h
  · rw [cells_of_ne_bool order h, spells_fixed]
    constructor
    · rintro rfl
      exact ⟨length_encode order s, decode_encode order s⟩
    · rintro ⟨hl, hd⟩
      have he := encode_decode order h hl
      rw [hd] at he
      exact he.symm

end Scalar

namespace Codec

/-- How much room the field keeps for an absent value. -/
def roomOf (c : Codec) (f : Field) : Nat :=
  if (f.condition.map (·.advance)).getD false then c.keptWidth f.type else 0

mutual

/-- The cells of a value of a field, or of an element of its list. -/
def cells (c : Codec) (f : Field) : Value → List Cell
  | .null => List.replicate (c.roomOf f) .room
  | .scalar s => s.cells c.schema.order
  | .list items => itemCells c f items
  | .record t slots => slotCells c t.fields slots
  | .foreign _ _ => []

/-- The cells of the elements of a list. -/
def itemCells (c : Codec) (f : Field) : List Value → List Cell
  | [] => []
  | v :: vs => cells c f v ++ itemCells c f vs

/-- The cells of values, each of its own field. -/
def slotCells (c : Codec) (fields : List Field) : List Value → List Cell
  | [] => []
  | v :: vs =>
    match fields with
    | [] => []
    | f :: fs => cells c f v ++ slotCells c fs vs

end

/-- The cells of a record. -/
def recordCells (c : Codec) (r : Record) : List Cell := c.slotCells r.type.fields r.slots

/-- The number of bytes that a record takes up. -/
def recordWidth (c : Codec) (r : Record) : Nat := (c.recordCells r).length

end Codec

end Savefile
