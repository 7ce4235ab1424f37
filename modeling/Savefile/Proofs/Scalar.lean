import Mathlib.Algebra.Group.Nat.Defs
import Savefile.Record.Scalar

/-!
# Scalars and their bytes

Reading and writing a scalar are inverse to each other, in either byte order. The one exception is
a truth value, of which only zero and one are ever written although every byte can be read.
-/
namespace Savefile

namespace Bytes

theorem length_digits (width n : Nat) : (digits width n).length = width := by
  induction width generalizing n with
  | zero => rfl
  | succ width ih => simp [digits, ih]

theorem ofDigits_digits (width n : Nat) : ofDigits (digits width n) = n % 256 ^ width := by
  induction width generalizing n with
  | zero => simp [digits, ofDigits, Nat.mod_one]
  | succ width ih =>
    have hb : (n % 256).toUInt8.toNat = n % 256 := by simp
    rw [digits, ofDigits, ih, hb, Nat.pow_succ', Nat.mod_mul]

theorem digits_ofDigits (bs : List UInt8) : digits bs.length (ofDigits bs) = bs := by
  induction bs with
  | nil => rfl
  | cons b bs ih =>
    have hb : b.toNat < 256 := b.toNat_lt
    have hm : (b.toNat + 256 * ofDigits bs) % 256 = b.toNat := by omega
    have hd : (b.toNat + 256 * ofDigits bs) / 256 = ofDigits bs := by omega
    rw [List.length_cons, ofDigits, digits, hm, hd, ih]
    simp

theorem length_word (order : ByteOrder) (width n : Nat) : (word order width n).length = width := by
  cases order <;> simp [word, length_digits]

theorem ofWord_word (order : ByteOrder) (width n : Nat) :
    ofWord order (word order width n) = n % 256 ^ width := by
  cases order <;> simp [word, ofWord, ofDigits_digits]

theorem word_ofWord (order : ByteOrder) (bs : List UInt8) :
    word order bs.length (ofWord order bs) = bs := by
  cases order with
  | little => exact digits_ofDigits bs
  | big =>
    have h := digits_ofDigits bs.reverse
    rw [List.length_reverse] at h
    simp only [word, ofWord, h, List.reverse_reverse]

theorem ofWord_lt (order : ByteOrder) (bs : List UInt8) : ofWord order bs < 256 ^ bs.length := by
  have h := ofWord_word order bs.length (ofWord order bs)
  rw [word_ofWord] at h
  rw [h]
  exact Nat.mod_lt _ (Nat.pow_pos (by decide))

end Bytes

namespace Scalar

theorem ofBits_bits (s : Scalar) : ofBits s.kind s.bits = s := by
  cases s with
  | bool b => cases b <;> rfl
  | _ => simp [ofBits, bits, kind]

theorem bits_ofBits {p : Primitive} (hp : p ≠ .bool) (n : Nat) :
    (ofBits p n).bits = n % 256 ^ p.width := by
  cases p <;> simp_all [ofBits, bits, Primitive.width]

theorem kind_ofBits (p : Primitive) (n : Nat) : (ofBits p n).kind = p := by
  cases p <;> rfl

theorem bits_lt (s : Scalar) : s.bits < 256 ^ s.kind.width := by
  by_cases h : s.kind = .bool
  · cases s <;> simp_all [kind, bits, Primitive.width]
    split <;> decide
  · rw [← ofBits_bits s, bits_ofBits h, kind_ofBits]
    exact Nat.mod_lt _ (Nat.pow_pos (by decide))

@[simp] theorem kind_decode (order : ByteOrder) (p : Primitive) (bs : List UInt8) :
    (decode order p bs).kind = p := kind_ofBits p _

@[simp] theorem length_encode (order : ByteOrder) (s : Scalar) :
    (s.encode order).length = s.kind.width := Bytes.length_word _ _ _

/-- What was written is read again. -/
theorem decode_encode (order : ByteOrder) (s : Scalar) :
    decode order s.kind (s.encode order) = s := by
  rw [decode, encode, Bytes.ofWord_word, Nat.mod_eq_of_lt s.bits_lt, ofBits_bits]

/-- What was read is written again, truth values apart. -/
theorem encode_decode (order : ByteOrder) {p : Primitive} (hp : p ≠ .bool) {bs : List UInt8}
    (hbs : bs.length = p.width) : (decode order p bs).encode order = bs := by
  have hlt := Bytes.ofWord_lt order bs
  have hbits : (decode order p bs).bits = Bytes.ofWord order bs := by
    rw [decode, bits_ofBits hp, ← hbs]
    exact Nat.mod_eq_of_lt hlt
  rw [encode, hbits, kind_decode, ← hbs, Bytes.word_ofWord]

theorem decode_bool (order : ByteOrder) (b : UInt8) :
    decode order .bool [b] = .bool (b != 0) := by
  have h : (Bytes.ofWord order [b] != 0) = (b != 0) := by
    have hw : Bytes.ofWord order [b] = b.toNat := by
      cases order <;> simp [Bytes.ofWord, Bytes.ofDigits]
    rw [hw, Bool.eq_iff_iff]
    simp [← UInt8.toNat_inj]
  rw [decode, ofBits, h]

end Scalar

end Savefile
