import Savefile.Codec.FromJson
import Savefile.Proofs.FloatText
import Savefile.Proofs.JsonText
import Savefile.Proofs.Scalar
import Savefile.Record.Json

/-!
# Scalars and their JSON

A whole number is written with all its digits, and a float as a numeral or, where it is no finite
number, by its name. Each is read back at its own width. Only among the floats that are not numbers
a name does not tell one from the other, and reading chooses the canonical one.
-/
namespace Savefile

open Decimal (BinaryFormat Numeral)

namespace Scalar

/-- Whether a scalar is a float that is not a number. -/
def isNaN : Scalar → Bool
  | .f32 b => BinaryFormat.single.infinity < b.toNat % BinaryFormat.single.signBit
  | .f64 b => BinaryFormat.double.infinity < b.toNat % BinaryFormat.double.signBit
  | _ => false

/-- The scalar with the canonical quiet float in place of any other that is not a number. -/
def quieted (s : Scalar) : Scalar :=
  match s with
  | .f32 _ => if s.isNaN then .f32 0x7fc00000 else s
  | .f64 _ => if s.isNaN then .f64 0x7ff8000000000000 else s
  | s => s

theorem quieted_eq_self_iff {s : Scalar} :
    s.quieted = s ↔ (s.isNaN = true → s = .f32 0x7fc00000 ∨ s = .f64 0x7ff8000000000000) := by
  cases s with
  | f32 b =>
    by_cases h : (Scalar.f32 b).isNaN = true
    · simp [quieted, h, eq_comm]
    · simp [quieted, h]
  | f64 b =>
    by_cases h : (Scalar.f64 b).isNaN = true
    · simp [quieted, h, eq_comm]
    · simp [quieted, h]
  | _ => simp [quieted, isNaN]

theorem toNat_toInt_emod {w : Nat} (x : BitVec w) :
    (x.toInt % (Nat.pow 2 w : Int)).toNat = x.toNat := by
  have hpow : (Nat.pow 2 w : Int) = ((2 ^ w : Nat) : Int) := rfl
  rw [hpow, BitVec.toInt_eq_toNat_bmod, Int.bmod_emod, ← Int.natCast_emod, Int.toNat_natCast,
    Nat.mod_eq_of_lt x.isLt]

variable {s : Scalar} {f : BinaryFormat} {i : Int}

/-- A whole number without a sign is its own bits. -/
theorem toInt?_of_isUnsigned (h : s.kind.isUnsigned = true) : s.toInt? = some (s.bits : Int) := by
  cases s with
  | u8 n | u16 n | u32 n | u64 n => rfl
  | _ => cases h

/-- A whole number with a sign fits its width, and its bits are its two's complement. -/
theorem toInt?_of_isSigned (h : s.kind.isSigned = true) :
    ∃ i, s.toInt? = some i ∧ -(Nat.pow 2 (s.kind.width * 8 - 1) : Int) ≤ i ∧
      i < Nat.pow 2 (s.kind.width * 8 - 1) ∧
      (i % (Nat.pow 2 (s.kind.width * 8) : Int)).toNat = s.bits := by
  cases s with
  | i8 n | i16 n | i32 n | i64 n =>
    exact ⟨_, rfl, n.le_toInt, n.toInt_lt, toNat_toInt_emod n.toBitVec⟩
  | _ => cases h

theorem toJson_of_toInt? (h : s.toInt? = some i) : s.toJson = .number (toString i) := by
  cases s with
  | f32 b | f64 b | bool b => cases h
  | _ =>
    cases h
    rfl

theorem quieted_of_toInt? (h : s.toInt? = some i) : s.quieted = s := by
  cases s with
  | f32 b | f64 b => cases h
  | _ => rfl

theorem kind_cases (s : Scalar) : s.kind.isUnsigned = true ∨ s.kind.isSigned = true ∨
    (∃ f, s.kind.floatFormat? = some f) ∨ ∃ b, s = .bool b := by
  cases s with
  | u8 n | u16 n | u32 n | u64 n => exact .inl rfl
  | i8 n | i16 n | i32 n | i64 n => exact .inr (.inl rfl)
  | f32 b | f64 b => exact .inr (.inr (.inl ⟨_, rfl⟩))
  | bool b => exact .inr (.inr (.inr ⟨b, rfl⟩))

theorem float_cases (h : s.kind.floatFormat? = some f) :
    (∃ b, s = .f32 b ∧ f = .single) ∨ ∃ b, s = .f64 b ∧ f = .double := by
  cases s with
  | f32 b => exact .inl ⟨b, rfl, (Option.some.inj h).symm⟩
  | f64 b => exact .inr ⟨b, rfl, (Option.some.inj h).symm⟩
  | _ => cases h

theorem moderate_of_floatFormat? (h : s.kind.floatFormat? = some f) : f.Moderate := by
  obtain ⟨b, rfl, rfl⟩ | ⟨b, rfl, rfl⟩ := float_cases h
  · exact BinaryFormat.moderate_single
  · exact BinaryFormat.moderate_double

theorem bits_lt_of_floatFormat? (h : s.kind.floatFormat? = some f) : s.bits < 2 * f.signBit := by
  obtain ⟨b, rfl, rfl⟩ | ⟨b, rfl, rfl⟩ := float_cases h
  · exact b.toNat_lt
  · exact b.toNat_lt

theorem toJson_of_floatFormat? (h : s.kind.floatFormat? = some f) :
    s.toJson =
      if f.infinity ≤ s.bits % f.signBit then .string (Decimal.jsonLayout.write f s.bits)
      else .number (Decimal.jsonLayout.write f s.bits) := by
  obtain ⟨b, rfl, rfl⟩ | ⟨b, rfl, rfl⟩ := float_cases h
  · rfl
  · rfl

theorem isNaN_iff (h : s.kind.floatFormat? = some f) :
    s.isNaN = true ↔ f.infinity < s.bits % f.signBit := by
  obtain ⟨b, rfl, rfl⟩ | ⟨b, rfl, rfl⟩ := float_cases h
  · exact decide_eq_true_iff
  · exact decide_eq_true_iff

theorem quieted_of_floatFormat? (h : s.kind.floatFormat? = some f) :
    s.quieted =
      .ofBits s.kind (if f.infinity < s.bits % f.signBit then f.quietNaN else s.bits) := by
  by_cases hnan : s.isNaN = true
  · rw [if_pos ((isNaN_iff h).mp hnan)]
    obtain ⟨b, rfl, rfl⟩ | ⟨b, rfl, rfl⟩ := float_cases h
    · rw [quieted, if_pos hnan]
      rfl
    · rw [quieted, if_pos hnan]
      rfl
  · rw [if_neg (mt (isNaN_iff h).mpr hnan), ofBits_bits]
    exact quieted_eq_self_iff.mpr fun h => absurd h hnan

end Scalar

namespace Primitive

/-- The name of a float that is no finite number is read as the infinity that it is, or as the
canonical float that is not a number. -/
theorem readFloatName?_write (l : Decimal.Layout) {f : BinaryFormat} {bits : Nat}
    (hlt : bits < 2 * f.signBit) (h : f.infinity ≤ bits % f.signBit) :
    readFloatName? f (l.write f bits) =
      some (if f.infinity < bits % f.signBit then f.quietNaN else bits) := by
  by_cases hnan : f.infinity < bits % f.signBit
  · rw [Decimal.Layout.write, if_pos hnan, if_pos hnan]
    rfl
  · have hinf : bits % f.signBit = f.infinity := by omega
    have hbits := f.signed_mod_eq hlt
    rw [hinf] at hbits
    rw [Decimal.Layout.write, if_neg hnan, if_pos hinf, if_neg hnan]
    by_cases hsign : f.signBit ≤ bits
    · rw [if_pos hsign] at hbits
      simp [hsign, readFloatName?, hbits]
    · rw [if_neg hsign] at hbits
      simp [hsign, readFloatName?, hbits]

variable {s : Scalar}

theorem readNumber_of_isUnsigned (h : s.kind.isUnsigned = true) :
    s.kind.readNumber (toString (s.bits : Int)) = .ok s := by
  have hpow : 256 ^ s.kind.width = Nat.pow 2 (s.kind.width * 8) := by
    cases s.kind <;> rfl
  have htext : (toString (s.bits : Int)).toList = Decimal.digitChars s.bits := by
    rw [Decimal.toList_toString_int, Numeral.chars_ofNat]
    simp [Numeral.sign]
  rw [readNumber, if_pos h, htext, Decimal.readUnsigned_digitChars (hpow ▸ s.bits_lt)]
  simp only [Except.map, Scalar.ofBits_bits]

theorem readNumber_of_isSigned {i : Int} (h : s.kind.isSigned = true) (hi : s.toInt? = some i) :
    s.kind.readNumber (toString i) = .ok s := by
  obtain ⟨j, hj, hlow, hhigh, hbits⟩ := Scalar.toInt?_of_isSigned h
  obtain rfl : i = j := Option.some.inj (hi.symm.trans hj)
  have hunsigned : ¬s.kind.isUnsigned = true := by
    cases s <;> simp_all [Scalar.kind, isSigned, isUnsigned]
  have hwidth : 0 < s.kind.width * 8 := by
    cases s.kind <;> decide
  rw [readNumber, if_neg hunsigned, if_pos h, Decimal.readSigned_toString hwidth hlow hhigh]
  simp only [Except.map, hbits, Scalar.ofBits_bits]

theorem readNumber_eq_readFloat {p : Primitive} {f : BinaryFormat} (h : p.floatFormat? = some f)
    (text : String) :
    p.readNumber text = (Decimal.readFloat f text.toList).map (Scalar.ofBits p) := by
  cases p with
  | f32 | f64 =>
    cases h
    rfl
  | _ => cases h

theorem readNumber_of_floatFormat? {f : BinaryFormat} (h : s.kind.floatFormat? = some f)
    (hfinite : s.bits % f.signBit < f.infinity) :
    s.kind.readNumber (Decimal.jsonLayout.write f s.bits) = .ok s := by
  have hread := Decimal.readFloat_write Decimal.short_jsonLayout (Scalar.moderate_of_floatFormat? h)
    (Scalar.bits_lt_of_floatFormat? h) hfinite
  rw [readNumber_eq_readFloat h, hread]
  simp only [Except.map, Scalar.ofBits_bits]

end Primitive

namespace Codec

theorem scalarFromJson_number {p : Primitive} {text : String} {s : Scalar}
    (h : p.readNumber text = .ok s) :
    scalarFromJson (.primitive p) (.number text) = .ok (.scalar s) := by
  cases p with
  | bool => cases h
  | _ => simp only [scalarFromJson, h]

theorem scalarFromJson_string {p : Primitive} {f : BinaryFormat} {name : String} {bits : Nat}
    (hf : p.floatFormat? = some f) (h : Primitive.readFloatName? f name = some bits) :
    scalarFromJson (.primitive p) (.string name) = .ok (.scalar (.ofBits p bits)) := by
  cases p with
  | bool => cases hf
  | _ => simp only [scalarFromJson, hf, h]

/-- A scalar is read back from its JSON, up to the choice of a float that is not a number. -/
theorem scalarFromJson_toJson (s : Scalar) :
    scalarFromJson (.primitive s.kind) s.toJson = .ok (.scalar s.quieted) := by
  rcases s.kind_cases with hunsigned | hsigned | ⟨f, hf⟩ | ⟨b, rfl⟩
  · have hi := Scalar.toInt?_of_isUnsigned hunsigned
    rw [Scalar.toJson_of_toInt? hi, Scalar.quieted_of_toInt? hi]
    exact scalarFromJson_number (Primitive.readNumber_of_isUnsigned hunsigned)
  · obtain ⟨i, hi, -⟩ := Scalar.toInt?_of_isSigned hsigned
    rw [Scalar.toJson_of_toInt? hi, Scalar.quieted_of_toInt? hi]
    exact scalarFromJson_number (Primitive.readNumber_of_isSigned hsigned hi)
  · rw [Scalar.toJson_of_floatFormat? hf, Scalar.quieted_of_floatFormat? hf]
    split
    · rename_i hinf
      have hlt := Scalar.bits_lt_of_floatFormat? hf
      exact scalarFromJson_string hf (Primitive.readFloatName?_write _ hlt hinf)
    · rename_i hfinite
      have hread := Primitive.readNumber_of_floatFormat? hf (Nat.not_le.mp hfinite)
      rw [if_neg (by omega), Scalar.ofBits_bits]
      exact scalarFromJson_number hread
  · rfl

end Codec

namespace Scalar

theorem readable_toJson (s : Scalar) : s.toJson.Readable := by
  have hint : ∀ i, s.toInt? = some i → s.toJson.Readable := by
    intro i hi
    rw [toJson_of_toInt? hi]
    unfold Json.Readable
    exact ⟨_, _, Decimal.toList_toString_int i⟩
  rcases s.kind_cases with hunsigned | hsigned | ⟨f, hf⟩ | ⟨b, rfl⟩
  · exact hint _ (toInt?_of_isUnsigned hunsigned)
  · obtain ⟨i, hi, -⟩ := toInt?_of_isSigned hsigned
    exact hint i hi
  · rw [toJson_of_floatFormat? hf]
    split
    · simp [Json.Readable]
    · rename_i hfinite
      obtain ⟨n, htext, -⟩ := Decimal.Layout.exists_write Decimal.short_jsonLayout
        (moderate_of_floatFormat? hf) (Nat.not_le.mp hfinite)
      unfold Json.Readable
      exact ⟨_, n, htext⟩
  · simp [toJson, Json.Readable]

theorem toJson_leaf (s : Scalar) : (∃ b, s.toJson = .bool b) ∨ (∃ text, s.toJson = .number text) ∨
    ∃ name, s.toJson = .string name := by
  rcases s.kind_cases with hunsigned | hsigned | ⟨f, hf⟩ | ⟨b, rfl⟩
  · exact .inr (.inl ⟨_, toJson_of_toInt? (toInt?_of_isUnsigned hunsigned)⟩)
  · obtain ⟨i, hi, -⟩ := toInt?_of_isSigned hsigned
    exact .inr (.inl ⟨_, toJson_of_toInt? hi⟩)
  · rw [toJson_of_floatFormat? hf]
    split
    · exact .inr (.inr ⟨_, rfl⟩)
    · exact .inr (.inl ⟨_, rfl⟩)
  · exact .inl ⟨b, rfl⟩

end Scalar

end Savefile
