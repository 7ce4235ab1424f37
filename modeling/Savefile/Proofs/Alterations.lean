import Mathlib.Algebra.Field.ZMod
import Mathlib.RingTheory.AdjoinRoot
import Savefile.Proofs.Packing

/-!
# What a checksum notices

The checksum is the remainder of the data's bits, as a polynomial over two elements, by a generator
of degree 32. The words of the computation are followed in the ring of remainders, where a bit
further on is a multiplication by the variable. The variable is prime to the generator, so a change
of at most 32 bits in a row never leaves the remainder as it was.
-/
namespace Savefile.Checksum

open Polynomial

/-- Bits as a polynomial over two elements, the first bit with the highest power. -/
noncomputable def ofBits : List Bool → (ZMod 2)[X]
  | [] => 0
  | b :: bits => (if b then X ^ bits.length else 0) + ofBits bits

/-- The bits of a word, the lowest first. -/
def bits {w : Nat} (c : BitVec w) : List Bool := (List.range w).map c.getLsbD

/-- The bits of bytes in the order in which they are sent, the lowest of each byte first. -/
def message (bytes : List UInt8) : List Bool := bytes.flatMap fun b => bits b.toBitVec

/-- The generator of the check in full. -/
noncomputable def ieee : (ZMod 2)[X] :=
  X ^ 32 + X ^ 26 + X ^ 23 + X ^ 22 + X ^ 16 + X ^ 12 + X ^ 11 + X ^ 10 + X ^ 8 + X ^ 7 + X ^ 5
    + X ^ 4 + X ^ 2 + X + 1

@[simp]
theorem length_bits {w : Nat} (c : BitVec w) : (bits c).length = w := by simp [bits]

@[simp]
theorem length_message (bytes : List UInt8) : (message bytes).length = 8 * bytes.length := by
  simp [message, List.length_flatMap, Nat.mul_comm]

theorem bits_injective {w : Nat} : Function.Injective (bits (w := w)) := by
  intro c d h
  apply BitVec.eq_of_getLsbD_eq
  intro i hi
  exact List.map_inj_left.mp h i (List.mem_range.mpr hi)

theorem ofBits_append (a b : List Bool) : ofBits (a ++ b) = ofBits a * X ^ b.length + ofBits b := by
  induction a with
  | nil => simp [ofBits]
  | cons x a ih =>
    rw [List.cons_append, ofBits, ofBits, ih, List.length_append, add_mul, add_assoc, ite_mul,
      zero_mul, pow_add]

theorem degree_ofBits_lt (a : List Bool) : (ofBits a).degree < a.length := by
  induction a with
  | nil => simp [ofBits]
  | cons x a ih =>
    have hle : (ofBits a).degree < ((x :: a).length : WithBot ℕ) :=
      ih.trans (by exact_mod_cast Nat.lt_succ_self _)
    refine (degree_add_le _ _).trans_lt (max_lt ?_ hle)
    cases x with
    | false => simp
    | true =>
      rw [if_pos rfl, degree_X_pow]
      exact_mod_cast Nat.lt_succ_self _

theorem eq_of_ofBits_eq {a b : List Bool} (hlen : a.length = b.length)
    (h : ofBits a = ofBits b) : a = b := by
  induction a generalizing b with
  | nil => exact (List.length_eq_zero_iff.mp hlen.symm).symm
  | cons x a ih =>
    obtain ⟨y, b, rfl⟩ := List.exists_cons_of_length_eq_add_one hlen.symm
    have htail : a.length = b.length := by simpa using hlen
    -- The highest power tells the first bit, since the rest has a lower degree.
    have hcoeff : ∀ z (c : List Bool), (ofBits (z :: c)).coeff c.length = if z then 1 else 0 := by
      intro z c
      rw [ofBits, coeff_add, coeff_eq_zero_of_degree_lt (degree_ofBits_lt c)]
      cases z <;> simp
    have hx := hcoeff x a
    rw [h, htail, hcoeff y b] at hx
    have hxy : x = y := by revert hx; cases x <;> cases y <;> simp
    rw [ofBits, ofBits, hxy, htail] at h
    rw [hxy, ih htail (add_left_cancel h)]

theorem eq_of_message_eq {a b : List UInt8} (hlen : a.length = b.length)
    (h : message a = message b) : a = b := by
  induction a generalizing b with
  | nil => exact (List.length_eq_zero_iff.mp hlen.symm).symm
  | cons x a ih =>
    obtain ⟨y, b, rfl⟩ := List.exists_cons_of_length_eq_add_one hlen.symm
    obtain ⟨hbits, hrest⟩ := List.append_inj (by simpa [message] using h) (by simp)
    rw [ih (by simpa using hlen) hrest, UInt8.toBitVec_inj.mp (bits_injective hbits)]

theorem ofBits_map_xor (l : List Nat) (p q : Nat → Bool) :
    ofBits (l.map fun i => p i ^^ q i) = ofBits (l.map p) + ofBits (l.map q) := by
  induction l with
  | nil => simp [ofBits]
  | cons i l ih =>
    have htwo : (X : (ZMod 2)[X]) ^ l.length + X ^ l.length = 0 := CharTwo.add_self_eq_zero _
    simp only [List.map_cons, ofBits, ih, List.length_map]
    cases p i <;> cases q i <;> simp
    · ring
    · ring
    · linear_combination -htwo

theorem ofBits_bits_xor {w : Nat} (c d : BitVec w) :
    ofBits (bits (c ^^^ d)) = ofBits (bits c) + ofBits (bits d) := by
  have h : bits (c ^^^ d) = (List.range w).map fun i => c.getLsbD i ^^ d.getLsbD i :=
    List.map_congr_left fun i _ => BitVec.getLsbD_xor
  rw [h, ofBits_map_xor]
  rfl

/-- A word one place down, times the variable: only its lowest bit is lost. -/
theorem ofBits_bits_shiftRight (c : BitVec 32) :
    ofBits (bits (c >>> 1)) + (if c.getLsbD 0 then X ^ 32 else 0) = X * ofBits (bits c) := by
  have hc : bits c = c.getLsbD 0 :: (List.range 31).map fun i => c.getLsbD (i + 1) := by
    simp only [bits, List.range_succ_eq_map (n := 31), List.map_cons, List.map_map]
    rfl
  have hshift : bits (c >>> 1) = ((List.range 31).map fun i => c.getLsbD (i + 1)) ++ [false] := by
    simp only [bits, List.range_succ (n := 31), List.map_append]
    simp [Nat.add_comm]
  rw [hc, hshift, ofBits_append, ofBits]
  cases c.getLsbD 0 <;> simp [ofBits] <;> ring

theorem ofBits_bits_generator : X ^ 32 + ofBits (bits generator) = ieee := by
  have hbits : bits generator = (List.range 32).map fun i =>
      [26, 23, 22, 16, 12, 11, 10, 8, 7, 5, 4, 2, 1, 0].contains (31 - i) := by decide
  rw [hbits, ieee]
  simp [ofBits, List.range_succ]
  ring

/-- The remainder that a word of the computation stands for. -/
noncomputable def residue (c : BitVec 32) : AdjoinRoot ieee := AdjoinRoot.mk ieee (ofBits (bits c))

theorem residue_xor (c d : BitVec 32) : residue (c ^^^ d) = residue c + residue d := by
  rw [residue, ofBits_bits_xor, map_add, residue, residue]

theorem residue_shift (c : BitVec 32) : residue (shift c) = AdjoinRoot.root ieee * residue c := by
  have hroot : AdjoinRoot.root ieee * residue c =
      residue (c >>> 1) + AdjoinRoot.mk ieee (if c.getLsbD 0 then X ^ 32 else 0) := by
    rw [residue, residue, ← map_add, ofBits_bits_shiftRight, map_mul, AdjoinRoot.mk_X]
  have hgen : residue generator = AdjoinRoot.mk ieee (X ^ 32) := by
    rw [residue, AdjoinRoot.mk_eq_mk, CharTwo.sub_eq_add, add_comm, ofBits_bits_generator]
  rw [hroot, shift]
  split
  · rw [residue_xor, hgen]
  · rw [map_zero, add_zero]

theorem residue_shifts (n : Nat) (c : BitVec 32) :
    residue (shifts n c) = AdjoinRoot.root ieee ^ n * residue c := by
  induction n generalizing c with
  | zero => simp [shifts]
  | succ n ih => rw [shifts, ih, residue_shift, pow_succ, mul_assoc]

/-- A byte is taken in at the lowest places, which have the highest powers. -/
theorem residue_setWidth (b : UInt8) :
    residue (b.toBitVec.setWidth 32) =
      AdjoinRoot.root ieee ^ 24 * AdjoinRoot.mk ieee (ofBits (bits b.toBitVec)) := by
  have hbits : bits (b.toBitVec.setWidth 32) = bits b.toBitVec ++ List.replicate 24 false := by
    rw [bits, show (32 : Nat) = 8 + 24 from rfl, List.range_add, List.map_append]
    refine congrArg₂ _ (List.map_congr_left fun i hi => ?_) (List.eq_replicate_iff.mpr ⟨?_, ?_⟩)
    · have hi := List.mem_range.mp hi
      simp [show i < 32 by omega]
    · simp
    · simp
  have hzeros : ∀ n, ofBits (List.replicate n false) = 0 := by
    intro n
    induction n with
    | zero => rfl
    | succ n ih => rw [List.replicate_succ, ofBits, ih]; simp
  rw [residue, hbits, ofBits_append, hzeros, List.length_replicate, add_zero, map_mul, map_pow,
    AdjoinRoot.mk_X, mul_comm]

theorem residue_step (c : BitVec 32) (b : UInt8) :
    residue (step c b) = AdjoinRoot.root ieee ^ 8 * residue c +
      AdjoinRoot.root ieee ^ 32 * AdjoinRoot.mk ieee (ofBits (bits b.toBitVec)) := by
  rw [step, residue_shifts, residue_xor, residue_setWidth]
  ring

theorem residue_foldl_step (c : BitVec 32) (bytes : List UInt8) :
    residue (bytes.foldl step c) = AdjoinRoot.root ieee ^ (message bytes).length * residue c +
      AdjoinRoot.root ieee ^ 32 * AdjoinRoot.mk ieee (ofBits (message bytes)) := by
  induction bytes generalizing c with
  | nil => simp [message, ofBits]
  | cons b bytes ih =>
    have hmessage : message (b :: bytes) = bits b.toBitVec ++ message bytes := rfl
    rw [List.foldl_cons, ih, residue_step, hmessage, ofBits_append, List.length_append, length_bits,
      map_add, map_mul, map_pow, AdjoinRoot.mk_X]
    ring

theorem ieee_monic : ieee.Monic := by
  rw [← ofBits_bits_generator]
  exact monic_X_pow_add (by simpa using degree_ofBits_lt (bits generator))

theorem degree_ieee : ieee.degree = 32 := by
  rw [← ofBits_bits_generator, degree_add_eq_left_of_degree_lt, degree_X_pow]
  · rfl
  · rw [degree_X_pow]
    simpa using degree_ofBits_lt (bits generator)

/-- The variable is prime to the generator, whose last term is one. -/
theorem isCoprime_X_ieee : IsCoprime X ieee := by
  refine ⟨-(X ^ 31 + X ^ 25 + X ^ 22 + X ^ 21 + X ^ 15 + X ^ 11 + X ^ 10 + X ^ 9 + X ^ 7 + X ^ 6 +
    X ^ 4 + X ^ 3 + X + 1), 1, ?_⟩
  rw [ieee]
  ring

theorem eq_zero_of_ieee_dvd {p : (ZMod 2)[X]} {n : Nat} (hp : p.degree < 32)
    (h : ieee ∣ p * X ^ n) : p = 0 := by
  have hdvd : ieee ∣ p := (isCoprime_X_ieee.pow_left (m := n)).symm.dvd_of_dvd_mul_right h
  exact eq_zero_of_dvd_of_degree_lt hdvd (by rwa [degree_ieee])

theorem ofBits_bits_ofBytes (bytes : List UInt8) :
    ofBits (bits (~~~ofBytes bytes)) =
      (ofBits (List.replicate 32 true) * X ^ (message bytes).length +
        ofBits (message bytes) * X ^ 32) %ₘ ieee := by
  have hlow : (ofBits (bits (~~~ofBytes bytes))).degree < ieee.degree := by
    rw [degree_ieee]
    simpa using degree_ofBits_lt (bits (~~~ofBytes bytes))
  have hones : bits (BitVec.allOnes 32) = List.replicate 32 true := by decide
  rw [← (modByMonic_eq_self_iff ieee_monic).mpr hlow]
  refine modByMonic_eq_of_dvd_sub ieee_monic (AdjoinRoot.mk_eq_mk.mp ?_)
  have hfold := residue_foldl_step (BitVec.allOnes 32) bytes
  rw [residue, residue, hones] at hfold
  rw [ofBytes, BitVec.not_not, hfold]
  simp only [map_add, map_mul, map_pow, AdjoinRoot.mk_X]
  ring

/-- No other short run of bytes in the same place has the same checksum. -/
theorem window_eq_of_ofBytes_eq {front window window' back : List UInt8}
    (hlen : window.length = window'.length) (hshort : window.length ≤ 4)
    (h : ofBytes (front ++ window ++ back) = ofBytes (front ++ window' ++ back)) :
    window = window' := by
  have hres : residue ((front ++ window ++ back).foldl step (BitVec.allOnes 32)) =
      residue ((front ++ window' ++ back).foldl step (BitVec.allOnes 32)) :=
    congrArg residue (BitVec.not_inj.mp h)
  have hmessage : ∀ w : List UInt8,
      message (front ++ w ++ back) = message front ++ message w ++ message back := by
    intro w
    simp [message]
  have hsame : AdjoinRoot.mk ieee (ofBits (message (front ++ window ++ back)) * X ^ 32) =
      AdjoinRoot.mk ieee (ofBits (message (front ++ window' ++ back)) * X ^ 32) := by
    rw [residue_foldl_step, residue_foldl_step] at hres
    simpa [hlen, mul_comm] using hres
  have hdvd : ieee ∣ (ofBits (message window) - ofBits (message window')) *
      X ^ ((message back).length + 32) := by
    convert AdjoinRoot.mk_eq_mk.mp hsame using 1
    rw [hmessage, hmessage]
    simp only [ofBits_append, length_message, hlen]
    ring
  have hdegree : (ofBits (message window) - ofBits (message window')).degree < 32 := by
    have hbound : ∀ w : List UInt8, w.length ≤ 4 → (ofBits (message w)).degree < 32 := by
      intro w hw
      refine (degree_ofBits_lt (message w)).trans_le ?_
      rw [length_message]
      exact_mod_cast Nat.mul_le_mul_left 8 hw
    exact (degree_sub_le _ _).trans_lt
      (max_lt (hbound window hshort) (hbound window' (hlen ▸ hshort)))
  have hzero := eq_zero_of_ieee_dvd hdegree hdvd
  exact eq_of_message_eq hlen (eq_of_ofBits_eq (by simp [hlen]) (sub_eq_zero.mp hzero))

theorem eq_of_ofBytes_eq {bytes other : List UInt8} {start stop : Nat} (hle : start ≤ stop)
    (hshort : stop ≤ start + 4) (hlen : other.length = bytes.length)
    (hfront : other.take start = bytes.take start) (hback : other.drop stop = bytes.drop stop)
    (h : ofBytes other = ofBytes bytes) : other = bytes := by
  -- The part between the places, with what stands before and after it, is all there is.
  have hparts : ∀ l : List UInt8,
      l = l.take start ++ (l.drop start).take (stop - start) ++ l.drop stop := by
    intro l
    have hdrop : l.drop stop = (l.drop start).drop (stop - start) := by
      rw [List.drop_drop, Nat.add_sub_cancel' hle]
    rw [List.append_assoc, hdrop, List.take_append_drop, List.take_append_drop]
  rw [hparts other, hparts bytes, hfront, hback] at h
  have hwindow := window_eq_of_ofBytes_eq (by simp [hlen]) (by simp; omega) h
  rw [hparts other, hparts bytes, hfront, hback, hwindow]

theorem length_append (bytes : List UInt8) : (append bytes).length = bytes.length + size := by
  rw [append, List.length_append, Bytes.length_word]

/-- What is long enough to end in a checksum does so, or is told from what does. -/
theorem split_cases {data : List UInt8} (h : size ≤ data.length) :
    (∃ bytes, split data = .ok bytes ∧ data = append bytes) ∨
      ∃ stored computed, stored ≠ computed ∧ split data = .error (.mismatch stored computed) := by
  rw [split, if_neg (Nat.not_lt.mpr h)]
  simp only
  split
  · rename_i hsum
    refine .inl ⟨_, rfl, ?_⟩
    have hlen : (data.drop (data.length - size)).length = size := by
      rw [List.length_drop]
      omega
    have hword := Bytes.word_ofWord .big (data.drop (data.length - size))
    rw [hlen] at hword
    rw [append, hsum, hword, List.take_append_drop]
  · exact .inr ⟨_, _, Ne.symm ‹_›, rfl⟩

theorem split_eq_ok_iff {data bytes : List UInt8} :
    split data = .ok bytes ↔ data = append bytes := by
  constructor
  · intro h
    have hlen : size ≤ data.length := by
      by_contra hlen
      rw [split, if_pos (Nat.not_le.mp hlen)] at h
      cases h
    obtain ⟨found, hfound, hdata⟩ | ⟨_, _, _, herror⟩ := split_cases hlen
    · rw [h] at hfound
      cases hfound
      exact hdata
    · rw [h] at herror
      cases herror
  · rintro rfl
    exact split_append bytes

/-- The second data have the length of the first and differ from them somewhere, but only from place
`start` up to place `stop`. -/
structure AlteredWithin (start stop : Nat) (data altered : List UInt8) : Prop where
  length_eq : altered.length = data.length
  outside : ∀ i, i < start ∨ stop ≤ i → altered[i]? = data[i]?
  ne : altered ≠ data

namespace AlteredWithin

variable {start stop : Nat} {data altered : List UInt8}

theorem take_eq (h : AlteredWithin start stop data altered) :
    altered.take start = data.take start := by
  apply List.ext_getElem?
  intro i
  simp only [List.getElem?_take]
  split
  · exact h.outside i (.inl ‹_›)
  · rfl

theorem drop_eq (h : AlteredWithin start stop data altered) :
    altered.drop stop = data.drop stop := by
  apply List.ext_getElem?
  intro i
  rw [List.getElem?_drop, List.getElem?_drop]
  exact h.outside _ (.inr (Nat.le_add_right _ _))

theorem start_lt_stop (h : AlteredWithin start stop data altered) : start < stop := by
  by_contra hlt
  exact h.ne (List.ext_getElem? fun i => h.outside i (by omega))

end AlteredWithin

theorem ofBytes_eq_of_word_eq {a b : List UInt8}
    (h : Bytes.word .big size (ofBytes a).toNat = Bytes.word .big size (ofBytes b).toNat) :
    ofBytes a = ofBytes b := by
  have hsum : ∀ c : BitVec 32, Bytes.ofWord .big (Bytes.word .big size c.toNat) = c.toNat := by
    intro c
    rw [Bytes.ofWord_word]
    exact Nat.mod_eq_of_lt c.isLt
  apply BitVec.eq_of_toNat_eq
  rw [← hsum, h, hsum]

theorem not_append_of_altered {bytes other : List UInt8} {start stop : Nat}
    (hplace : stop ≤ bytes.length ∧ stop ≤ start + 4 ∨ bytes.length ≤ start)
    (h : AlteredWithin start stop (append bytes) (append other)) : False := by
  have hlen : other.length = bytes.length := by
    simpa [length_append] using h.length_eq
  apply h.ne
  rcases hplace with ⟨hrecord, hshort⟩ | htrailer
  · have hstart := h.start_lt_stop
    have hfront : other.take start = bytes.take start := by
      have htake := h.take_eq
      rwa [append, append, List.take_append_of_le_length (by omega),
        List.take_append_of_le_length (by omega)] at htake
    have hback : other.drop stop ++ Bytes.word .big size (ofBytes other).toNat =
        bytes.drop stop ++ Bytes.word .big size (ofBytes bytes).toNat := by
      have hdrop := h.drop_eq
      rwa [append, append, List.drop_append_of_le_length (by omega),
        List.drop_append_of_le_length (by omega)] at hdrop
    obtain ⟨hrest, hword⟩ := List.append_inj hback (by simp [hlen])
    rw [eq_of_ofBytes_eq hstart.le hshort hlen hfront hrest (ofBytes_eq_of_word_eq hword)]
  · have htake := congrArg (List.take bytes.length) h.take_eq
    rw [List.take_take, List.take_take, Nat.min_eq_left htrailer, append, append,
      List.take_left' hlen, List.take_left] at htake
    rw [htake]

theorem append_eq (bytes : List UInt8) :
    append bytes =
      bytes ++ [24, 16, 8, 0].map fun i => UInt8.ofBitVec ((ofBytes bytes).extractLsb' i 8) := by
  have hbyte : ∀ i, UInt8.ofBitVec ((ofBytes bytes).extractLsb' i 8) =
      ((ofBytes bytes).toNat / 2 ^ i % 256).toUInt8 := by
    intro i
    apply UInt8.toNat_inj.mp
    simp [Nat.shiftRight_eq_div_pow]
  simp [append, size, Bytes.word, Bytes.digits, hbyte, Nat.div_div_eq_div_mul]

/-- The checksum is the remainder of the bits, with the first ones complemented, by the generator of
degree 32, and it stands behind the data with its highest byte first. Just what ends in its checksum
is accepted, and a change inside four bytes in a row of the data, or of the checksum, is noticed. -/
theorem split_notices_alterations :
    (∀ bytes, ofBits (bits (~~~ofBytes bytes)) =
        (ofBits (List.replicate 32 true) * X ^ (message bytes).length +
          ofBits (message bytes) * X ^ 32) %ₘ ieee) ∧
      (∀ bytes, append bytes =
        bytes ++ [24, 16, 8, 0].map fun i => UInt8.ofBitVec ((ofBytes bytes).extractLsb' i 8)) ∧
      (∀ data bytes, split data = .ok bytes ↔ data = append bytes) ∧
      ∀ bytes data start stop, AlteredWithin start stop (append bytes) data →
        (stop ≤ bytes.length ∧ stop ≤ start + 4 ∨ bytes.length ≤ start) →
        ∃ stored computed, stored ≠ computed ∧ split data = .error (.mismatch stored computed) := by
  refine ⟨ofBits_bits_ofBytes, append_eq, fun _ _ => split_eq_ok_iff, ?_⟩
  intro bytes data start stop haltered hplace
  have hlen : size ≤ data.length := by
    rw [haltered.length_eq, length_append]
    exact Nat.le_add_left _ _
  obtain ⟨other, _, rfl⟩ | hmismatch := split_cases hlen
  · exact (not_append_of_altered hplace haltered).elim
  · exact hmismatch

-- The check value that the standard gives: the nine digits.
example : ofBytes [0x31, 0x32, 0x33, 0x34, 0x35, 0x36, 0x37, 0x38, 0x39] = 0xcbf43926#32 := by
  decide +kernel

/-- Three of four bytes in a row, and then the last byte of the checksum. -/
theorem split_notices_alterations_here :
    AlteredWithin 1 5 (append [1, 2, 3, 4, 5])
        ((((append [1, 2, 3, 4, 5]).set 1 0xff).set 2 0x80).set 4 0) ∧
      AlteredWithin 5 9 (append [1, 2, 3, 4, 5]) ((append [1, 2, 3, 4, 5]).set 8 0) ∧
      (∃ stored computed, stored ≠ computed ∧
        split ((((append [1, 2, 3, 4, 5]).set 1 0xff).set 2 0x80).set 4 0) =
          .error (.mismatch stored computed)) ∧
      ∃ stored computed, stored ≠ computed ∧
        split ((append [1, 2, 3, 4, 5]).set 8 0) = .error (.mismatch stored computed) := by
  have hrecord : AlteredWithin 1 5 (append [1, 2, 3, 4, 5])
      ((((append [1, 2, 3, 4, 5]).set 1 0xff).set 2 0x80).set 4 0) := by
    refine ⟨by simp, fun i hi => ?_, by decide +kernel⟩
    rw [List.getElem?_set_ne (by omega), List.getElem?_set_ne (by omega),
      List.getElem?_set_ne (by omega)]
  have htrailer : AlteredWithin 5 9 (append [1, 2, 3, 4, 5])
      ((append [1, 2, 3, 4, 5]).set 8 0) :=
    ⟨by simp, fun i hi => List.getElem?_set_ne (by omega), by decide +kernel⟩
  exact ⟨hrecord, htrailer,
    split_notices_alterations.2.2.2 _ _ _ _ hrecord (.inl ⟨by decide, by decide⟩),
    split_notices_alterations.2.2.2 _ _ _ _ htrailer (.inr (by decide))⟩

end Savefile.Checksum
