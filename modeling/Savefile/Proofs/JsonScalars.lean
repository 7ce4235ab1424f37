import Savefile.Proofs.JsonNumbers
import Savefile.Proofs.Obtained
import Savefile.Proofs.Overflow

/-!
# Scalars from JSON

A number is taken for a whole number if it is written with digits only, with a minus only where the
kind has a sign, and lies in the range of the kind; it becomes the scalar of exactly this number. It
is taken for a float if it does not overflow. The only strings that are taken are the names of
floats that are no finite numbers.
-/
namespace Savefile

open Decimal (BinaryFormat Numeral digitsValue exponentFrom)

namespace Scalar

variable {p : Primitive} {s : Scalar}

theorem toInt?_ofBits_of_isUnsigned {k : Nat} (hp : p.isUnsigned = true)
    (hk : k < Nat.pow 2 (p.width * 8)) : (ofBits p k).toInt? = some (k : Int) := by
  have hbool : p ≠ .bool := by
    rintro rfl
    cases hp
  have hpow : 256 ^ p.width = Nat.pow 2 (p.width * 8) := by
    cases p <;> rfl
  rw [toInt?_of_isUnsigned (by rwa [kind_ofBits]), bits_ofBits hbool, hpow, Nat.mod_eq_of_lt hk]

theorem toInt?_ofBits_of_isSigned {i : Int} (hp : p.isSigned = true)
    (hlow : -(Nat.pow 2 (p.width * 8 - 1) : Int) ≤ i) (hhigh : i < Nat.pow 2 (p.width * 8 - 1)) :
    (ofBits p (i % (Nat.pow 2 (p.width * 8) : Int)).toNat).toInt? = some i := by
  have hbool : p ≠ .bool := by
    rintro rfl
    cases hp
  have hpow : 256 ^ p.width = Nat.pow 2 (p.width * 8) := by
    cases p <;> rfl
  have htwice : Nat.pow 2 (p.width * 8) = 2 * Nat.pow 2 (p.width * 8 - 1) := by
    cases p <;> rfl
  have hpos : (0 : Int) < (Nat.pow 2 (p.width * 8) : Int) :=
    Int.natCast_pos.mpr (Nat.pow_pos (by decide))
  have hmod := Int.emod_nonneg i hpos.ne'
  have hlt := Int.emod_lt_of_pos i hpos
  obtain ⟨j, hj, hjlow, hjhigh, hbits⟩ :=
    toInt?_of_isSigned (s := ofBits p (i % (Nat.pow 2 (p.width * 8) : Int)).toNat)
      (by rwa [kind_ofBits])
  rw [kind_ofBits] at hjlow hjhigh hbits
  rw [bits_ofBits hbool, hpow, Nat.mod_eq_of_lt (by omega)] at hbits
  have hrest : j % (Nat.pow 2 (p.width * 8) : Int) = i % (Nat.pow 2 (p.width * 8) : Int) := by
    have hjmod := Int.emod_nonneg j hpos.ne'
    omega
  -- a number in the range of the kind is known from its rest
  have hbmod (x : Int) (hxlow : -(Nat.pow 2 (p.width * 8 - 1) : Int) ≤ x)
      (hxhigh : x < Nat.pow 2 (p.width * 8 - 1)) : x.bmod (Nat.pow 2 (p.width * 8)) = x :=
    Int.bmod_eq_of_le (by omega) (by omega)
  rw [hj, ← hbmod j hjlow hjhigh, ← Int.emod_bmod, hrest, Int.emod_bmod, hbmod i hlow hhigh]

theorem toInt?_eq_none_of_floatFormat? {f : BinaryFormat} (h : s.kind.floatFormat? = some f) :
    s.toInt? = none := by
  obtain ⟨b, rfl, -⟩ | ⟨b, rfl, -⟩ := float_cases h
  · rfl
  · rfl

end Scalar

namespace Primitive

variable {p : Primitive} {s : Scalar} {text : String} {negative : Bool} {n : Numeral}

/-- The whole numbers of a kind. -/
def InRange (p : Primitive) (i : Int) : Prop :=
  (p.isUnsigned = true ∧ 0 ≤ i ∧ i < Nat.pow 2 (p.width * 8)) ∨
    (p.isSigned = true ∧ -(Nat.pow 2 (p.width * 8 - 1) : Int) ≤ i ∧ i < Nat.pow 2 (p.width * 8 - 1))

theorem wide_of_floatFormat? {f : BinaryFormat} (h : p.floatFormat? = some f) : f.Wide := by
  cases p with
  | f32 =>
    cases h
    exact BinaryFormat.wide_single
  | f64 =>
    cases h
    exact BinaryFormat.wide_double
  | _ => cases h

theorem not_isUnsigned_of_isSigned (h : p.isSigned = true) : ¬p.isUnsigned = true := by
  cases p <;> simp_all [isSigned, isUnsigned]

theorem isUnsigned_or_isSigned_of_toInt? {i : Int} (h : s.toInt? = some i) :
    s.kind.isUnsigned = true ∨ s.kind.isSigned = true := by
  rcases s.kind_cases with hunsigned | hsigned | ⟨f, hf⟩ | ⟨b, rfl⟩
  · exact .inl hunsigned
  · exact .inr hsigned
  · rw [Scalar.toInt?_eq_none_of_floatFormat? hf] at h
    cases h
  · cases h

/-- The numbers in the range of a kind are those of its scalars. -/
theorem inRange_iff {i : Int} : p.InRange i ↔ ∃ s : Scalar, s.kind = p ∧ s.toInt? = some i := by
  constructor
  · rintro (⟨hp, hlow, hhigh⟩ | ⟨hp, hlow, hhigh⟩)
    · obtain ⟨k, rfl⟩ := Int.eq_ofNat_of_zero_le hlow
      exact ⟨_, Scalar.kind_ofBits p k,
        Scalar.toInt?_ofBits_of_isUnsigned hp (Int.ofNat_lt.mp hhigh)⟩
    · exact ⟨_, Scalar.kind_ofBits p _, Scalar.toInt?_ofBits_of_isSigned hp hlow hhigh⟩
  · rintro ⟨s, rfl, hi⟩
    rcases isUnsigned_or_isSigned_of_toInt? hi with hp | hp
    · have hbits := s.bits_lt
      have hpow : 256 ^ s.kind.width = Nat.pow 2 (s.kind.width * 8) := by
        cases s.kind <;> rfl
      rw [Scalar.toInt?_of_isUnsigned hp, Option.some.injEq] at hi
      exact .inl ⟨hp, by omega, by omega⟩
    · obtain ⟨j, hj, hlow, hhigh, -⟩ := Scalar.toInt?_of_isSigned hp
      obtain rfl : i = j := Option.some.inj (hi.symm.trans hj)
      exact .inr ⟨hp, hlow, hhigh⟩

theorem readNumber_unsigned_iff (hp : p.isUnsigned = true) (htext : Json.Spells text negative n) :
    p.readNumber text = .ok s ↔
      n.IsWhole ∧ negative = false ∧ s.kind = p ∧ s.toInt? = some (n.wholeValue negative) := by
  obtain ⟨cs, hcs, htext⟩ := htext
  rw [readNumber, if_pos hp, map_ok_iff, htext]
  simp only [hcs.readUnsigned_iff]
  constructor
  · rintro ⟨k, ⟨rfl, hn, rfl, hlt⟩, rfl⟩
    exact ⟨hn, rfl, Scalar.kind_ofBits p _, Scalar.toInt?_ofBits_of_isUnsigned hp hlt⟩
  · rintro ⟨hn, rfl, rfl, hi⟩
    have hbits : digitsValue n.whole = s.bits := by
      rw [Scalar.toInt?_of_isUnsigned hp, Option.some.injEq] at hi
      exact Int.ofNat_inj.mp hi.symm
    have hpow : 256 ^ s.kind.width = Nat.pow 2 (s.kind.width * 8) := by
      cases s.kind <;> rfl
    exact ⟨s.bits, ⟨rfl, hn, hbits, hpow ▸ s.bits_lt⟩, s.ofBits_bits⟩

theorem readNumber_signed_iff (hp : p.isSigned = true) (htext : Json.Spells text negative n) :
    p.readNumber text = .ok s ↔
      n.IsWhole ∧ s.kind = p ∧ s.toInt? = some (n.wholeValue negative) := by
  obtain ⟨cs, hcs, htext⟩ := htext
  have hwidth : 0 < p.width * 8 := by
    cases p <;> decide
  rw [readNumber, if_neg (not_isUnsigned_of_isSigned hp), if_pos hp, map_ok_iff, htext]
  simp only [hcs.readSigned_iff hwidth]
  constructor
  · rintro ⟨i, ⟨hn, rfl, hlow, hhigh⟩, rfl⟩
    exact ⟨hn, Scalar.kind_ofBits p _, Scalar.toInt?_ofBits_of_isSigned hp hlow hhigh⟩
  · rintro ⟨hn, rfl, hi⟩
    obtain ⟨j, hj, hlow, hhigh, hbits⟩ := Scalar.toInt?_of_isSigned hp
    obtain rfl : n.wholeValue negative = j := Option.some.inj (hi.symm.trans hj)
    exact ⟨_, ⟨hn, rfl, hlow, hhigh⟩, by rw [hbits, s.ofBits_bits]⟩

/-- A whole number is taken from its text if the text has digits only, with a minus only if the
kind has a sign, and the number lies in the range of the kind. -/
theorem exists_readNumber_whole_iff (hp : p.isUnsigned = true ∨ p.isSigned = true)
    (htext : Json.Spells text negative n) :
    (∃ s, p.readNumber text = .ok s) ↔
      n.IsWhole ∧ (negative = true → p.isSigned = true) ∧ p.InRange (n.wholeValue negative) := by
  rw [inRange_iff]
  rcases hp with hp | hp
  · have hunsigned : ¬p.isSigned = true := fun hsigned => not_isUnsigned_of_isSigned hsigned hp
    simp [readNumber_unsigned_iff hp htext, hunsigned]
  · simp [readNumber_signed_iff hp htext, hp]

theorem toInt?_of_readNumber {i : Int} (h : p.readNumber text = .ok s)
    (htext : Json.Spells text negative n) (hi : s.toInt? = some i) :
    n.IsWhole ∧ n.wholeValue negative = i := by
  have hkind := Codec.kind_of_readNumber h
  rcases isUnsigned_or_isSigned_of_toInt? hi with hp | hp
  · rw [hkind] at hp
    obtain ⟨hn, -, -, hvalue⟩ := (readNumber_unsigned_iff hp htext).mp h
    exact ⟨hn, Option.some.inj (hvalue.symm.trans hi)⟩
  · rw [hkind] at hp
    obtain ⟨hn, -, hvalue⟩ := (readNumber_signed_iff hp htext).mp h
    exact ⟨hn, Option.some.inj (hvalue.symm.trans hi)⟩

theorem exists_readNumber_float_iff {f : BinaryFormat} (hp : p.floatFormat? = some f)
    (htext : Json.Spells text negative n) :
    (∃ s, p.readNumber text = .ok s) ↔ n.FitsAsTaken f := by
  obtain ⟨cs, hcs, htext⟩ := htext
  rw [← hcs.exists_readFloat_iff (wide_of_floatFormat? hp) negative, readNumber_eq_readFloat hp,
    htext]
  simp [map_ok_iff]

theorem readFloatName?_isSome_iff (f : BinaryFormat) (name : String) :
    (readFloatName? f name).isSome = true ↔ name ∈ ["NaN", "+Inf", "Inf", "-Inf"] := by
  unfold readFloatName?
  split
  · simp
  · simp
  · simp
  · simp
  · simp_all

end Primitive

namespace Codec

/-- The JSON values that stand for a scalar of a kind, with a given rule for the numerals that fit a
float. -/
inductive ScalarTree (fits : Numeral → BinaryFormat → Prop) : Primitive → Json → Prop
  | bool (b : Bool) : ScalarTree fits .bool (.bool b)
  /-- A whole number has no fraction and no exponent, and a minus only if its kind has a sign. -/
  | whole {p : Primitive} {text : String} {negative : Bool} {n : Numeral} :
      Json.Spells text negative n → n.IsWhole → (negative = true → p.isSigned = true) →
      p.InRange (n.wholeValue negative) → ScalarTree fits p (.number text)
  | float {p : Primitive} {f : BinaryFormat} {text : String} {negative : Bool} {n : Numeral} :
      p.floatFormat? = some f → Json.Spells text negative n →
      fits n f → ScalarTree fits p (.number text)
  | floatName {p : Primitive} {f : BinaryFormat} {name : String} :
      p.floatFormat? = some f → name ∈ ["NaN", "+Inf", "Inf", "-Inf"] →
      ScalarTree fits p (.string name)

/-- The text is a number, and a rule tells whether what it is taken for overflows. -/
structure DecidedBy (fits : Numeral → BinaryFormat → Prop) (text : String) : Prop where
  spelled : Json.IsSpelled text
  fitsAsTaken_iff : ∀ {negative n}, Json.Spells text negative n →
    ∀ {p : Primitive} {f : BinaryFormat}, p.floatFormat? = some f → (n.FitsAsTaken f ↔ fits n f)

variable {c : Codec} {fits : Numeral → BinaryFormat → Prop} {j : Json}

theorem exists_readNumber_iff {p : Primitive} {text : String} (htext : DecidedBy fits text) :
    (∃ s, p.readNumber text = .ok s) ↔ ScalarTree fits p (.number text) := by
  obtain ⟨negative, n, hspells⟩ := htext.spelled
  constructor
  · rintro ⟨s, hs⟩
    have hkind := kind_of_readNumber hs
    rcases s.kind_cases with hp | hp | ⟨f, hf⟩ | ⟨b, rfl⟩
    · obtain ⟨hn, hsign, hrange⟩ := (Primitive.exists_readNumber_whole_iff (.inl (hkind ▸ hp))
        hspells).mp ⟨s, hs⟩
      exact .whole hspells hn hsign hrange
    · obtain ⟨hn, hsign, hrange⟩ := (Primitive.exists_readNumber_whole_iff (.inr (hkind ▸ hp))
        hspells).mp ⟨s, hs⟩
      exact .whole hspells hn hsign hrange
    · rw [hkind] at hf
      have hvalue := (Primitive.exists_readNumber_float_iff hf hspells).mp ⟨s, hs⟩
      exact .float hf hspells ((htext.fitsAsTaken_iff hspells hf).mp hvalue)
    · rw [← hkind] at hs
      cases hs
  · intro h
    cases h with
    | whole hspells hn hsign hrange =>
      have hp : p.isUnsigned = true ∨ p.isSigned = true := hrange.imp And.left And.left
      exact (Primitive.exists_readNumber_whole_iff hp hspells).mpr ⟨hn, hsign, hrange⟩
    | float hf hspells hvalue =>
      exact (Primitive.exists_readNumber_float_iff hf hspells).mpr
        ((htext.fitsAsTaken_iff hspells hf).mpr hvalue)

theorem exists_scalarFromJson_iff {kind : TypeKind}
    (hj : ∀ text ∈ j.numbers, DecidedBy fits text) :
    (∃ v, scalarFromJson kind j = .ok v) ↔ ∃ p, kind = .primitive p ∧ ScalarTree fits p j := by
  constructor
  · rintro ⟨v, hv⟩
    rcases scalarFromJson_cases hv with ⟨b, rfl, rfl, -⟩ | ⟨p, text, x, rfl, rfl, hx, -⟩ |
      ⟨p, f, name, bits, rfl, hf, rfl, hbits, -⟩
    · exact ⟨.bool, rfl, .bool b⟩
    · exact ⟨p, rfl, (exists_readNumber_iff (hj text (by simp [Json.numbers]))).mp ⟨x, hx⟩⟩
    · have hname := (Primitive.readFloatName?_isSome_iff f name).mp (by rw [hbits]; rfl)
      exact ⟨p, rfl, .floatName hf hname⟩
  · rintro ⟨p, rfl, h⟩
    have hnumber (text : String) (hj : ∀ text' ∈ (Json.number text).numbers, DecidedBy fits text')
        (h : ScalarTree fits p (.number text)) :
        ∃ v, scalarFromJson (.primitive p) (.number text) = .ok v := by
      obtain ⟨s, hs⟩ := (exists_readNumber_iff (hj text (by simp [Json.numbers]))).mpr h
      exact ⟨_, scalarFromJson_number hs⟩
    cases h with
    | bool b => exact ⟨_, rfl⟩
    | whole hspells hn hsign hrange => exact hnumber _ hj (.whole hspells hn hsign hrange)
    | float hf hspells hvalue => exact hnumber _ hj (.float hf hspells hvalue)
    | @floatName _ f name hf hname =>
      obtain ⟨bits, hbits⟩ :=
        Option.isSome_iff_exists.mp ((Primitive.readFloatName?_isSome_iff f name).mpr hname)
      exact ⟨_, scalarFromJson_string hf hbits⟩

end Codec

end Savefile
