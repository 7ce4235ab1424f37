import Savefile.Proofs.Numeral

/-!
# Floats as text

Every decimal is written as a numeral of its own value. A finite float is written as a decimal that
is read as this float, so every finite float is read back from its text.
-/
namespace Savefile.Decimal

section Rendering

variable {ds : List Char}

/-- Digits of a number other than zero, as they are written. -/
structure Significant (ds : List Char) : Prop where
  digits : ∀ c ∈ ds, c.isDigit
  ne_nil : ds ≠ []
  head : ds.head? ≠ some '0'

theorem significant_digitChars {k : Nat} (hk : k ≠ 0) : Significant (digitChars k) :=
  ⟨fun _ => isDigit_of_mem_digitChars, digitChars_ne_nil k, head?_digitChars hk⟩

theorem isDigit_of_mem_zeros {k : Nat} {c : Char} (hc : c ∈ List.replicate k '0') : c.isDigit := by
  rw [List.eq_of_mem_replicate hc]
  rfl

theorem digitsValue_zeros_append (k : Nat) (ds : List Char) :
    digitsValue (List.replicate k '0' ++ ds) = digitsValue ds := by
  rw [digitsValue, digitsFrom_append, digitsFrom_replicate_zero, Nat.zero_mul, digitsValue]

theorem digitsValue_append_zeros (k : Nat) (ds : List Char) :
    digitsValue (ds ++ List.replicate k '0') = digitsValue ds * 10 ^ k := by
  rw [digitsValue, digitsFrom_append, digitsFrom_replicate_zero, digitsValue]

/-- The text is a numeral without an exponent that stands for the digits with the point after the
first `whole` of them. -/
def IsPositional (ds : List Char) (whole : Int) (text : List Char) : Prop :=
  ∃ n : Numeral, text = n.chars ∧ n.exponent = none ∧ (n.whole.length : Int) = max 1 whole ∧
    n.scientific.value = Scientific.value ⟨digitsValue ds, whole - ds.length⟩

theorem Significant.zeros_before (hds : Significant ds) {whole : Int} (h : whole ≤ 0) :
    IsPositional ds whole ('0' :: '.' :: (List.replicate (-whole).toNat '0' ++ ds)) := by
  refine ⟨⟨['0'], List.replicate (-whole).toNat '0' ++ ds, none, by simp, by simp, .inl rfl, ?_,
    by simp⟩, ?_, rfl, by simp; omega, ?_⟩
  · intro c hc
    exact (List.mem_append.mp hc).elim isDigit_of_mem_zeros (hds.digits c)
  · simp [Numeral.chars, Numeral.fractionChars, Numeral.exponentChars, hds.ne_nil]
  · have hvalue : digitsValue (['0'] ++ (List.replicate (-whole).toNat '0' ++ ds)) =
        digitsValue ds := by
      rw [← List.append_assoc, ← List.replicate_one, ← List.replicate_add]
      exact digitsValue_zeros_append _ _
    simp only [Numeral.scientific, Numeral.exponentValue, hvalue, Option.map_none,
      Option.getD_none, List.length_append, List.length_replicate]
    congr 2
    omega

theorem Significant.zeros_after (hds : Significant ds) {whole : Int}
    (h : (ds.length : Int) ≤ whole) :
    IsPositional ds whole (ds ++ List.replicate (whole.toNat - ds.length) '0') := by
  refine ⟨⟨ds ++ List.replicate (whole.toNat - ds.length) '0', [], none, ?_, by simp [hds.ne_nil],
    .inr ?_, by simp, by simp⟩, ?_, rfl, ?_, ?_⟩
  · intro c hc
    exact (List.mem_append.mp hc).elim (hds.digits c) isDigit_of_mem_zeros
  · rw [List.head?_append_of_ne_nil _ hds.ne_nil]
    exact hds.head
  · simp [Numeral.chars, Numeral.fractionChars, Numeral.exponentChars]
  · have hlength := List.length_pos_iff.mpr hds.ne_nil
    simp only [List.length_append, List.length_replicate]
    omega
  · have hexponent : whole - ds.length = ((whole.toNat - ds.length : Nat) : Int) := by omega
    simp [Numeral.scientific, Numeral.exponentValue, Scientific.value, digitsValue_append_zeros,
      hexponent]

theorem Significant.point_among (hds : Significant ds) {whole : Int} (hlow : 0 < whole)
    (hhigh : whole < ds.length) :
    IsPositional ds whole (ds.take whole.toNat ++ '.' :: ds.drop whole.toNat) := by
  have hfraction : ds.drop whole.toNat ≠ [] := by
    rw [Ne, List.drop_eq_nil_iff]
    omega
  have hwhole : whole.toNat ≠ 0 := by omega
  refine ⟨⟨ds.take whole.toNat, ds.drop whole.toNat, none, ?_, by simp [hwhole, hds.ne_nil],
    .inr ?_, ?_, by simp⟩, ?_, rfl, ?_, ?_⟩
  · exact fun c hc => hds.digits c (List.mem_of_mem_take hc)
  · rw [List.head?_take, if_neg hwhole]
    exact hds.head
  · exact fun c hc => hds.digits c (List.mem_of_mem_drop hc)
  · simp [Numeral.chars, Numeral.fractionChars, Numeral.exponentChars, hfraction]
  · simp only [List.length_take]
    omega
  · simp only [Numeral.scientific, Numeral.exponentValue, List.take_append_drop, Option.map_none,
      Option.getD_none, List.length_drop]
    congr 2
    omega

theorem Significant.positional (hds : Significant ds) (whole : Int) :
    IsPositional ds whole (positional ds whole) := by
  unfold Decimal.positional
  split_ifs with hlow hhigh
  · exact hds.zeros_before hlow
  · exact hds.zeros_after hhigh
  · exact hds.point_among (by omega) (by omega)

theorem digitsValue_padLeft (width k : Nat) : digitsValue (padLeft width (digitChars k)) = k := by
  rw [padLeft, digitsValue_zeros_append, digitsValue_digitChars]

theorem padLeft_digitChars (width k : Nat) :
    padLeft width (digitChars k) ≠ [] ∧ ∀ c ∈ padLeft width (digitChars k), c.isDigit := by
  refine ⟨by simp [padLeft, digitChars_ne_nil], fun c hc => ?_⟩
  exact (List.mem_append.mp hc).elim isDigit_of_mem_zeros isDigit_of_mem_digitChars

/-- The digits of an exponent with its sign. -/
def exponentDigits (negativeWidth : Nat) (exponent : Int) : Bool × List Char :=
  if exponent < 0 then (true, padLeft negativeWidth (digitChars (-exponent).toNat))
  else (false, padLeft 2 (digitChars exponent.toNat))

theorem exponentDigits_wellFormed (negativeWidth : Nat) (exponent : Int) :
    (exponentDigits negativeWidth exponent).2 ≠ [] ∧
      ∀ c ∈ (exponentDigits negativeWidth exponent).2, c.isDigit := by
  unfold exponentDigits
  split
  · exact padLeft_digitChars _ _
  · exact padLeft_digitChars _ _

theorem digitsValue_exponentDigits (negativeWidth : Nat) (exponent : Int) :
    digitsValue (exponentDigits negativeWidth exponent).2 = exponent.natAbs := by
  unfold exponentDigits
  split
  · rw [digitsValue_padLeft]
    omega
  · rw [digitsValue_padLeft]
    omega

theorem signed_exponentDigits (negativeWidth : Nat) (exponent : Int) :
    (if (exponentDigits negativeWidth exponent).1 then
        -(digitsValue (exponentDigits negativeWidth exponent).2 : Int)
      else digitsValue (exponentDigits negativeWidth exponent).2) = exponent := by
  rw [digitsValue_exponentDigits]
  by_cases hneg : exponent < 0
  · have hsign : (exponentDigits negativeWidth exponent).1 = true := by
      rw [exponentDigits, if_pos hneg]
    rw [if_pos hsign]
    omega
  · have hsign : ¬(exponentDigits negativeWidth exponent).1 = true := by
      rw [exponentDigits, if_neg hneg]
      exact Bool.false_ne_true
    rw [if_neg hsign]
    omega

theorem scientific_cons (negativeWidth : Nat) (c : Char) (cs : List Char) (exponent : Int) :
    scientific negativeWidth (c :: cs) exponent =
      c :: ((if cs = [] then [] else '.' :: cs) ++ 'e' ::
        (if (exponentDigits negativeWidth exponent).1 then '-' else '+') ::
          (exponentDigits negativeWidth exponent).2) := by
  by_cases h : exponent < 0
  · cases cs <;> simp [scientific, exponentDigits, h]
  · cases cs <;> simp [scientific, exponentDigits, h]

/-- Digits with the point after the first of them and an exponent are a numeral. -/
theorem Significant.scientific (hds : Significant ds) (negativeWidth : Nat) {exponent : Int}
    (h : exponent.natAbs < exponentCap) :
    ∃ n : Numeral, scientific negativeWidth ds exponent = n.chars ∧ n.Readable ∧
      n.scientific = ⟨digitsValue ds, exponent + 1 - ds.length⟩ := by
  obtain ⟨c, cs, rfl⟩ := List.exists_cons_of_ne_nil hds.ne_nil
  refine ⟨⟨[c], cs, some (exponentDigits negativeWidth exponent), ?_, by simp, .inr ?_, ?_, ?_⟩,
    ?_, ?_, ?_⟩
  · intro d hd
    rw [List.mem_singleton.mp hd]
    exact hds.digits c List.mem_cons_self
  · simpa using hds.head
  · exact fun d hd => hds.digits d (List.mem_cons_of_mem c hd)
  · rintro x ⟨⟩
    exact exponentDigits_wellFormed _ _
  · rw [scientific_cons]
    rfl
  · refine ⟨?_, (by decide : 1 ≤ placeLimit)⟩
    rintro x ⟨⟩
    rwa [digitsValue_exponentDigits]
  · simp only [Numeral.scientific, Numeral.exponentValue, Option.map_some, Option.getD_some,
      signed_exponentDigits, List.singleton_append, List.length_cons, Nat.cast_succ]
    congr 1
    ring

/-- The place of the first digit, as a power of ten. -/
def Scientific.leadingExponent (d : Scientific) : Int :=
  d.exponent + (digitChars d.digits).length - 1

/-- The layout writes no more digits before the point than count as places. -/
def Layout.Short (l : Layout) : Prop := l.firstScientific ≤ placeLimit

theorem short_jsonLayout : jsonLayout.Short := (by decide : (21 : Int) ≤ placeLimit)

/-- Every decimal with a moderate exponent is written as a numeral of its own value. -/
theorem Layout.exists_render {l : Layout} (hl : l.Short) (d : Scientific)
    (h : d.leadingExponent.natAbs < exponentCap) :
    ∃ n : Numeral, l.render d = n.chars ∧ n.Readable ∧ n.scientific.value = d.value := by
  by_cases hzero : d.digits = 0
  · rw [render, if_pos hzero]
    refine ⟨⟨['0'], [], none, by simp, by simp, .inl rfl, by simp, by simp⟩, rfl, ?_, ?_⟩
    · exact ⟨by simp, by decide⟩
    · simp [Numeral.scientific, Scientific.value, hzero, digitsValue]
  rw [render, if_neg hzero]
  dsimp only
  split_ifs with hplace
  · obtain ⟨n, htext, hn, hvalue⟩ :=
      (significant_digitChars hzero).scientific l.negativeWidth h
    refine ⟨n, htext, hn, ?_⟩
    rw [hvalue, digitsValue_digitChars]
    congr 2
    rw [Scientific.leadingExponent]
    omega
  · obtain ⟨n, htext, hn, hlength, hvalue⟩ := (significant_digitChars hzero).positional
      (d.exponent + (digitChars d.digits).length - 1 + 1)
    refine ⟨n, htext, ⟨by simp [hn], ?_⟩, ?_⟩
    · have hlimit : (1 : Int) ≤ placeLimit := by decide
      simp only [Bool.or_eq_true, decide_eq_true_eq, not_or, Int.not_lt, Int.not_le] at hplace
      rw [Short] at hl
      omega
    · rw [hvalue, digitsValue_digitChars]
      congr 2
      omega

end Rendering

section Floats

variable {f : BinaryFormat} {d : Scientific} {m : Nat}

/-- The exponents of a format's floats are far from where reading stops to count. -/
structure BinaryFormat.Moderate (f : BinaryFormat) : Prop where
  exponentBits_pos : 0 < f.exponentBits
  high : Nat.pow 2 (f.exponentBits - 1) + 1 ≤ exponentCap
  low : 2 - (exponentCap : Int) ≤ f.leastExponent

theorem BinaryFormat.moderate_single : single.Moderate := ⟨by decide, by decide, by decide⟩

theorem BinaryFormat.moderate_double : double.Moderate := ⟨by decide, by decide, by decide⟩

/-- A float is its sign and its magnitude. -/
theorem BinaryFormat.signed_mod_eq (f : BinaryFormat) {bits : Nat} (hlt : bits < 2 * f.signBit) :
    (if f.signBit ≤ bits then f.signBit + bits % f.signBit else bits % f.signBit) = bits := by
  by_cases hsign : f.signBit ≤ bits
  · rw [if_pos hsign, Nat.mod_eq_sub_mod hsign, Nat.mod_eq_of_lt (by omega)]
    omega
  · rw [if_neg hsign, Nat.mod_eq_of_lt (Nat.not_le.mp hsign)]

theorem lt_pow_length (k : Nat) : k < 10 ^ (digitChars k).length :=
  (Nat.length_toDigits_le_iff (by decide) Nat.length_toDigits_pos).mp (Nat.le_refl _)

theorem pow_length_le {k : Nat} (hk : k ≠ 0) : 10 ^ ((digitChars k).length - 1) ≤ k := by
  rcases Nat.eq_zero_or_pos ((digitChars k).length - 1) with hlen | hlen
  · rw [hlen]
    omega
  · have hlonger : ¬(digitChars k).length ≤ (digitChars k).length - 1 := by omega
    exact Nat.not_lt.mp (mt (Nat.length_toDigits_le_iff (by decide) hlen).mpr hlonger)

namespace Scientific

theorem value_lt (d : Scientific) : d.value < (10 : ℚ) ^ (d.leadingExponent + 1) := by
  have hdigits : (d.digits : ℚ) < 10 ^ (digitChars d.digits).length := by
    exact_mod_cast lt_pow_length d.digits
  have hsplit : d.leadingExponent + 1 = (digitChars d.digits).length + d.exponent := by
    rw [leadingExponent]
    ring
  rw [value, hsplit, zpow_add₀ (by norm_num), zpow_natCast]
  exact mul_lt_mul_of_pos_right hdigits (zpow_pos (by norm_num) _)

theorem le_value (hd : d.digits ≠ 0) : (10 : ℚ) ^ d.leadingExponent ≤ d.value := by
  have hdigits : (10 : ℚ) ^ ((digitChars d.digits).length - 1) ≤ d.digits := by
    exact_mod_cast pow_length_le hd
  have hpos : 0 < (digitChars d.digits).length := Nat.length_toDigits_pos
  have hsplit : d.leadingExponent = ((digitChars d.digits).length - 1 : Nat) + d.exponent := by
    rw [leadingExponent]
    omega
  rw [value, hsplit, zpow_add₀ (by norm_num), zpow_natCast]
  exact mul_le_mul_of_nonneg_right hdigits (zpow_pos (by norm_num) _).le

/-- A decimal that is read as a float has its first digit at a moderate place. -/
theorem natAbs_leadingExponent_lt (hf : f.Moderate) (hm : 0 < m) (h : d.readsAs f m = true) :
    d.leadingExponent.natAbs < exponentCap := by
  obtain ⟨hlow, hhigh⟩ := value_bounds hf.exponentBits_pos hm h
  have hdigits : d.digits ≠ 0 := by
    intro hzero
    have hpos : (0 : ℚ) < 2 ^ (f.leastExponent - 1) := zpow_pos two_pos _
    rw [value, hzero, Nat.cast_zero, zero_mul] at hlow
    exact absurd hlow (not_le.mpr hpos)
  have hbelow : d.leadingExponent < exponentCap := by
    by_contra hge
    have hchain : (10 : ℚ) ^ exponentCap < 10 ^ exponentCap :=
      calc (10 : ℚ) ^ exponentCap = 10 ^ (exponentCap : Int) := (zpow_natCast _ _).symm
        _ ≤ 10 ^ d.leadingExponent := zpow_le_zpow_right₀ (by norm_num) (not_lt.mp hge)
        _ ≤ d.value := le_value hdigits
        _ < 2 ^ (Nat.pow 2 (f.exponentBits - 1) + 1) := hhigh
        _ ≤ 10 ^ (Nat.pow 2 (f.exponentBits - 1) + 1) :=
          pow_le_pow_left₀ (by norm_num) (by norm_num) _
        _ ≤ 10 ^ exponentCap := pow_le_pow_right₀ (by norm_num) hf.high
    exact lt_irrefl _ hchain
  have habove : -(exponentCap : Int) < d.leadingExponent := by
    by_contra hle
    have hchain : d.value < d.value :=
      calc d.value < 10 ^ (d.leadingExponent + 1) := value_lt d
        _ ≤ 10 ^ (1 - (exponentCap : Int)) := zpow_le_zpow_right₀ (by norm_num) (by omega)
        _ ≤ 2 ^ (1 - (exponentCap : Int)) := by
          have hneg : 1 - (exponentCap : Int) = -((exponentCap - 1 : Nat) : Int) := by
            have hcap : 1 ≤ exponentCap := by decide
            omega
          rw [hneg, zpow_neg, zpow_neg, zpow_natCast, zpow_natCast]
          exact inv_anti₀ (pow_pos two_pos _) (pow_le_pow_left₀ (by norm_num) (by norm_num) _)
        _ ≤ 2 ^ (f.leastExponent - 1) :=
          zpow_le_zpow_right₀ (by norm_num) (by linarith [hf.low])
        _ ≤ d.value := hlow
    exact lt_irrefl _ hchain
  omega

end Scientific

/-- A finite float is written as a numeral that is read as its magnitude, after a sign. -/
theorem Layout.exists_write {l : Layout} (hl : l.Short) (hf : f.Moderate) {bits : Nat}
    (hbits : bits % f.signBit < f.infinity) :
    ∃ n : Numeral,
      (l.write f bits).toList = Numeral.sign (decide (f.signBit ≤ bits)) ++ n.chars ∧
        n.Readable ∧ n.scientific.readsAs f (bits % f.signBit) = true := by
  have hshortest := readsAs_shortest hbits
  have hplace : (shortest f (bits % f.signBit)).leadingExponent.natAbs < exponentCap := by
    rcases Nat.eq_zero_or_pos (bits % f.signBit) with hzero | hpos
    · rw [hzero, shortest, if_pos rfl]
      decide
    · exact Scientific.natAbs_leadingExponent_lt hf hpos hshortest
  obtain ⟨n, htext, hn, hvalue⟩ := exists_render hl _ hplace
  refine ⟨n, ?_, hn, ?_⟩
  · rw [write, if_neg (Nat.not_lt.mpr (Nat.le_of_lt hbits)), if_neg (Nat.ne_of_lt hbits), htext]
    by_cases hsign : f.signBit ≤ bits
    · simp [Numeral.sign, hsign]
    · simp [Numeral.sign, hsign]
  · rw [Scientific.readsAs_iff] at hshortest ⊢
    rw [Scientific.ofDecimal?_congr hvalue, hshortest]

theorem readFloat_numeral {n : Numeral} (hn : n.Readable) (hm : n.scientific.readsAs f m = true)
    (negative : Bool) :
    readFloat f (Numeral.sign negative ++ n.chars) =
      .ok (if negative then f.signBit + m else m) := by
  rw [Scientific.readsAs_iff, ← n.scientificBy_exponentFrom hn.exponent,
    ← n.taken_counted f hn.whole] at hm
  rw [n.writtenAs_chars.readFloat, hm]
  rfl

theorem readFloat_write {l : Layout} (hl : l.Short) (hf : f.Moderate) {bits : Nat}
    (hlt : bits < 2 * f.signBit) (hbits : bits % f.signBit < f.infinity) :
    readFloat f (l.write f bits).toList = .ok bits := by
  obtain ⟨n, htext, hn, hm⟩ := Layout.exists_write hl hf hbits
  rw [htext, readFloat_numeral hn hm]
  simp only [decide_eq_true_eq, f.signed_mod_eq hlt]

end Floats

end Savefile.Decimal
