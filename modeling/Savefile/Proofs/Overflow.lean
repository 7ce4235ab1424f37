import Savefile.Proofs.Numeral

/-!
# Overflow

A number overflows a format of floats if it does not lie below the middle between the greatest
finite float and the power of two after it. Rounding gives a finite float exactly for the numbers
that do not overflow.
-/
namespace Savefile.Decimal

namespace Ratio

variable {r : Ratio} {n : Nat}

/-- A half before an even number is rounded to this number. -/
theorem nearest_lt_iff (hd : 0 < r.den) (heven : n % 2 = 0) :
    r.nearest < n ↔ r.value < n - 1 / 2 := by
  have hd' : (0 : ℚ) < r.den := Nat.cast_pos.mpr hd
  have hvalue : r.value < n - 1 / 2 ↔ 2 * r.num + r.den < 2 * n * r.den := by
    rw [value, div_lt_iff₀ hd']
    constructor
    · intro h
      have : (2 * r.num + r.den : ℚ) < 2 * n * r.den := by linarith
      exact_mod_cast this
    · intro h
      have : (2 * r.num + r.den : ℚ) < 2 * n * r.den := by exact_mod_cast h
      linarith
  have hdiv := Nat.div_add_mod r.num r.den
  have hmod := Nat.mod_lt r.num hd
  rw [hvalue]
  simp only [nearest, Bool.or_eq_true, Bool.and_eq_true, decide_eq_true_eq, beq_iff_eq]
  generalize r.num / r.den = q at *
  generalize r.num % r.den = rest at *
  -- only the number just before `n`, which is odd, is affected by the rounding
  rcases Nat.lt_trichotomy (q + 1) n with hbelow | hnext | habove
  · have hprod : (q + 2) * r.den ≤ n * r.den := Nat.mul_le_mul_right _ hbelow
    have hexpand : (q + 2) * r.den = r.den * q + 2 * r.den := by ring
    have hdouble : 2 * n * r.den = 2 * (n * r.den) := by ring
    refine iff_of_true ?_ (by omega)
    split <;> omega
  · have hodd : q % 2 = 1 := by omega
    have hexpand : 2 * n * r.den = 2 * (r.den * q) + 2 * r.den := by
      rw [← hnext]
      ring
    split <;> omega
  · have hprod : n * r.den ≤ q * r.den := Nat.mul_le_mul_right _ (by omega)
    have hcomm : q * r.den = r.den * q := Nat.mul_comm _ _
    have hdouble : 2 * n * r.den = 2 * (n * r.den) := by ring
    refine iff_of_false ?_ (by omega)
    split <;> omega

end Ratio

namespace BinaryFormat

variable (f : BinaryFormat) {r : Ratio}

/-- The least number that overflows: the middle between the greatest finite float and the power of
two after it. -/
def overflow : ℚ := 2 ^ Nat.pow 2 (f.exponentBits - 1) * (1 - 1 / 2 ^ (f.fractionBits + 2))

/-- Both fields are wide enough for floats of different sizes. -/
structure Wide (f : BinaryFormat) : Prop where
  fractionBits_pos : 0 < f.fractionBits
  exponentBits_ge : 2 ≤ f.exponentBits

theorem wide_single : single.Wide := ⟨by decide, by decide⟩

theorem wide_double : double.Wide := ⟨by decide, by decide⟩

variable {f}

theorem Wide.two_pow_exponentBits (hf : f.Wide) :
    Nat.pow 2 f.exponentBits = 2 * Nat.pow 2 (f.exponentBits - 1) ∧
      2 ≤ Nat.pow 2 (f.exponentBits - 1) := by
  have hbits := hf.exponentBits_ge
  obtain ⟨b, hb⟩ : ∃ b, f.exponentBits = b + 2 := ⟨f.exponentBits - 2, by omega⟩
  have hone : 1 ≤ 2 ^ b := Nat.one_le_two_pow
  simp only [hb, Nat.pow_eq, Nat.add_one_sub_one, Nat.pow_succ]
  omega

theorem Wide.two_pow_fractionBits (hf : f.Wide) :
    Nat.pow 2 f.fractionBits % 2 = 0 ∧ 2 ≤ Nat.pow 2 f.fractionBits := by
  obtain ⟨b, hb⟩ := Nat.exists_eq_succ_of_ne_zero hf.fractionBits_pos.ne'
  have hone : 1 ≤ 2 ^ b := Nat.one_le_two_pow
  simp only [hb, Nat.succ_eq_add_one, Nat.pow_eq, Nat.pow_succ]
  omega

/-- Infinity lies `k` binades above where the binade `m` starts. -/
theorem Wide.infinity_eq (hf : f.Wide) (k : Nat) {m : Nat}
    (hm : m + k + 1 = 2 * Nat.pow 2 (f.exponentBits - 1)) :
    f.infinity = m * Nat.pow 2 f.fractionBits + k * Nat.pow 2 f.fractionBits := by
  rw [infinity, hf.two_pow_exponentBits.1, ← Nat.add_mul, ← hm, Nat.add_sub_cancel]

/-- How a positive number is rounded: the steps of the exponent, and the rounded significand. -/
theorem ofRatio_eq_of_log2 {k e : Int} (hn : 0 < r.num) (hk : r.log2 = k)
    (he : max f.leastExponent (k - f.fractionBits) = e) :
    f.ofRatio r = (e - f.leastExponent).toNat * Nat.pow 2 f.fractionBits +
      (r.scale 2 (-e)).nearest := by
  rw [ofRatio, if_neg hn.ne', hk]
  dsimp only
  rw [he]

theorem log2_bounds (hn : 0 < r.num) (hd : 0 < r.den) :
    (2 : ℚ) ^ r.log2 ≤ r.value ∧ r.value < 2 ^ (r.log2 + 1) := by
  have hvalue := Ratio.value_pos hn hd
  rw [Ratio.log2_eq hn hd]
  constructor
  · exact_mod_cast Int.zpow_log_le_self (b := 2) (by decide) hvalue
  · exact_mod_cast Int.lt_zpow_succ_log_self (b := 2) (by decide) r.value

theorem value_scale_two (r : Ratio) (e : Int) : (r.scale 2 (-e)).value = r.value * 2 ^ (-e) := by
  rw [Ratio.value_scale two_pos, Nat.cast_ofNat]

theorem ofRatio_lt_infinity (hf : f.Wide) (hn : 0 < r.num) (hd : 0 < r.den)
    (h : r.log2 < Nat.pow 2 (f.exponentBits - 1) - 1) : f.ofRatio r < f.infinity := by
  have htwo := hf.two_pow_exponentBits.2
  obtain ⟨heven, hfraction⟩ := hf.two_pow_fractionBits
  set e := max f.leastExponent (r.log2 - f.fractionBits) with he
  have hsteps : (e - f.leastExponent).toNat ≤ 2 * Nat.pow 2 (f.exponentBits - 1) - 4 := by
    rw [he, leastExponent]
    omega
  have hnearest : (r.scale 2 (-e)).nearest < 2 * Nat.pow 2 f.fractionBits + 2 := by
    rw [Ratio.nearest_lt_iff (Ratio.den_scale_pos hd two_pos) (by omega), value_scale_two]
    calc r.value * 2 ^ (-e) < 2 ^ (r.log2 + 1) * 2 ^ (-e) :=
          mul_lt_mul_of_pos_right (log2_bounds hn hd).2 (zpow_pos two_pos _)
      _ = 2 ^ (r.log2 + 1 - e) := by rw [← zpow_add₀ two_ne_zero, sub_eq_add_neg]
      _ ≤ 2 ^ ((f.fractionBits + 1 : Nat) : Int) :=
          zpow_le_zpow_right₀ one_le_two (by push_cast; omega)
      _ ≤ ((2 * Nat.pow 2 f.fractionBits + 2 : Nat) : ℚ) - 1 / 2 := by
          rw [zpow_natCast, pow_succ]
          push_cast [Nat.pow_eq]
          linarith
  have hinfinity := hf.infinity_eq 3 (m := 2 * Nat.pow 2 (f.exponentBits - 1) - 4) (by omega)
  have hproduct := Nat.mul_le_mul_right (Nat.pow 2 f.fractionBits) hsteps
  rw [ofRatio_eq_of_log2 hn rfl he.symm, hinfinity]
  omega

theorem infinity_le_ofRatio_of_log2 (hf : f.Wide) (hn : 0 < r.num) (hd : 0 < r.den)
    (h : (Nat.pow 2 (f.exponentBits - 1) : Int) ≤ r.log2) : f.infinity ≤ f.ofRatio r := by
  have htwo := hf.two_pow_exponentBits.2
  obtain ⟨heven, hfraction⟩ := hf.two_pow_fractionBits
  have he : max f.leastExponent (r.log2 - f.fractionBits) = r.log2 - f.fractionBits := by
    rw [leastExponent]
    omega
  have hnearest : Nat.pow 2 f.fractionBits ≤
      (r.scale 2 (-(r.log2 - f.fractionBits))).nearest := by
    rw [← Nat.not_lt, Ratio.nearest_lt_iff (Ratio.den_scale_pos hd two_pos) heven, value_scale_two,
      not_lt]
    calc ((Nat.pow 2 f.fractionBits : Nat) : ℚ) - 1 / 2 ≤ 2 ^ (f.fractionBits : Int) := by
          rw [zpow_natCast]
          push_cast [Nat.pow_eq]
          linarith
      _ = 2 ^ r.log2 * 2 ^ (-(r.log2 - f.fractionBits)) := by
          rw [← zpow_add₀ two_ne_zero]
          congr 1
          ring
      _ ≤ r.value * 2 ^ (-(r.log2 - f.fractionBits)) :=
          mul_le_mul_of_nonneg_right (log2_bounds hn hd).1 (zpow_pos two_pos _).le
  have hsteps : 2 * Nat.pow 2 (f.exponentBits - 1) - 2 ≤
      (r.log2 - f.fractionBits - f.leastExponent).toNat := by
    rw [leastExponent]
    omega
  have hinfinity := hf.infinity_eq 1 (m := 2 * Nat.pow 2 (f.exponentBits - 1) - 2) (by omega)
  have hproduct := Nat.mul_le_mul_right (Nat.pow 2 f.fractionBits) hsteps
  rw [ofRatio_eq_of_log2 hn rfl he, hinfinity]
  omega

/-- In the last binade the carry out of the significand decides. -/
theorem ofRatio_lt_infinity_iff_of_log2 (hf : f.Wide) (hn : 0 < r.num) (hd : 0 < r.den)
    (h : r.log2 = Nat.pow 2 (f.exponentBits - 1) - 1) :
    f.ofRatio r < f.infinity ↔ r.value < f.overflow := by
  have htwo := hf.two_pow_exponentBits.2
  have he : max f.leastExponent (r.log2 - f.fractionBits) =
      Nat.pow 2 (f.exponentBits - 1) - 1 - f.fractionBits := by
    rw [h, leastExponent]
    omega
  have hsteps : ((Nat.pow 2 (f.exponentBits - 1) - 1 - f.fractionBits : Int) -
      f.leastExponent).toNat = 2 * Nat.pow 2 (f.exponentBits - 1) - 3 := by
    rw [leastExponent]
    omega
  have hinfinity := hf.infinity_eq 2 (m := 2 * Nat.pow 2 (f.exponentBits - 1) - 3) (by omega)
  rw [ofRatio_eq_of_log2 hn rfl he, hsteps, hinfinity, Nat.add_lt_add_iff_left,
    Ratio.nearest_lt_iff (Ratio.den_scale_pos hd two_pos) (by omega), value_scale_two, zpow_neg,
    ← div_eq_mul_inv, div_lt_iff₀ (zpow_pos two_pos _), overflow]
  have hpower : (2 : ℚ) ^ (Nat.pow 2 (f.exponentBits - 1) - 1 - f.fractionBits : Int) =
      2 ^ Nat.pow 2 (f.exponentBits - 1) / 2 ^ (f.fractionBits + 1) := by
    rw [sub_sub, zpow_sub₀ two_ne_zero, add_comm (1 : Int)]
    exact_mod_cast rfl
  have hthreshold : ((2 * Nat.pow 2 f.fractionBits : Nat) - 1 / 2 : ℚ) *
      2 ^ (Nat.pow 2 (f.exponentBits - 1) - 1 - f.fractionBits : Int) =
        2 ^ Nat.pow 2 (f.exponentBits - 1) * (1 - 1 / 2 ^ (f.fractionBits + 2)) := by
    rw [hpower]
    push_cast [Nat.pow_eq]
    rw [pow_succ, pow_add]
    field_simp
  rw [hthreshold]

theorem overflow_lt (f : BinaryFormat) : f.overflow < 2 ^ Nat.pow 2 (f.exponentBits - 1) := by
  have hpos : (0 : ℚ) < 1 / 2 ^ (f.fractionBits + 2) := by positivity
  have hpower : (0 : ℚ) < 2 ^ Nat.pow 2 (f.exponentBits - 1) := by positivity
  rw [overflow]
  nlinarith

theorem le_overflow (f : BinaryFormat) :
    2 ^ Nat.pow 2 (f.exponentBits - 1) ≤ 2 * f.overflow := by
  have hhalf : (1 : ℚ) / 2 ^ (f.fractionBits + 2) ≤ 1 / 2 := by
    rw [pow_add]
    gcongr
    have hone : (1 : ℚ) ≤ 2 ^ f.fractionBits := one_le_pow₀ one_le_two
    linarith
  have hpower : (0 : ℚ) < 2 ^ Nat.pow 2 (f.exponentBits - 1) := by positivity
  rw [overflow]
  nlinarith

theorem Wide.one_lt_overflow (hf : f.Wide) : 1 < f.overflow := by
  have hfour : (2 : ℚ) ^ 2 ≤ 2 ^ Nat.pow 2 (f.exponentBits - 1) :=
    pow_le_pow_right₀ one_le_two hf.two_pow_exponentBits.2
  linarith [f.le_overflow]

/-- A power of ten overflows if its exponent reaches the greatest exponent of the floats. -/
theorem overflow_le_ten_zpow (f : BinaryFormat) {k : Int}
    (hk : (Nat.pow 2 (f.exponentBits - 1) : Int) ≤ k) : f.overflow ≤ 10 ^ k :=
  calc f.overflow ≤ 2 ^ Nat.pow 2 (f.exponentBits - 1) := f.overflow_lt.le
    _ ≤ 10 ^ Nat.pow 2 (f.exponentBits - 1) := pow_le_pow_left₀ (by norm_num) (by norm_num) _
    _ = 10 ^ (Nat.pow 2 (f.exponentBits - 1) : Int) := (zpow_natCast _ _).symm
    _ ≤ 10 ^ k := zpow_le_zpow_right₀ (by norm_num) hk

theorem ofRatio_lt_infinity_iff (hf : f.Wide) (hd : 0 < r.den) :
    f.ofRatio r < f.infinity ↔ r.value < f.overflow := by
  obtain ⟨hexponents, htwo⟩ := hf.two_pow_exponentBits
  have hpower : (0 : ℚ) < 2 ^ Nat.pow 2 (f.exponentBits - 1) := by positivity
  rcases Nat.eq_zero_or_pos r.num with hzero | hn
  · have hfinite : 0 < f.infinity :=
      Nat.mul_pos (by omega) (Nat.pow_pos two_pos)
    rw [ofRatio, if_pos hzero, (Ratio.num_eq_zero_iff hd).mp hzero]
    refine iff_of_true hfinite ?_
    linarith [f.le_overflow]
  obtain ⟨hlow, hhigh⟩ := log2_bounds hn hd
  rcases lt_trichotomy r.log2 (Nat.pow 2 (f.exponentBits - 1) - 1) with hbelow | hlast | habove
  · refine iff_of_true (ofRatio_lt_infinity hf hn hd hbelow) ?_
    have hhalf : (2 : ℚ) ^ (r.log2 + 1) * 2 ≤ 2 ^ Nat.pow 2 (f.exponentBits - 1) := by
      rw [← zpow_add_one₀ two_ne_zero, ← zpow_natCast]
      exact zpow_le_zpow_right₀ one_le_two (by omega)
    linarith [f.le_overflow]
  · exact ofRatio_lt_infinity_iff_of_log2 hf hn hd hlast
  · have habove : (Nat.pow 2 (f.exponentBits - 1) : Int) ≤ r.log2 := by omega
    refine iff_of_false (Nat.not_lt.mpr (infinity_le_ofRatio_of_log2 hf hn hd habove)) ?_
    have hwhole : (2 : ℚ) ^ Nat.pow 2 (f.exponentBits - 1) ≤ 2 ^ r.log2 := by
      rw [← zpow_natCast]
      exact zpow_le_zpow_right₀ one_le_two habove
    linarith [f.overflow_lt]

end BinaryFormat

theorem Scientific.isSome_ofDecimal?_iff {f : BinaryFormat} (hf : f.Wide) (d : Scientific) :
    (f.ofDecimal? d.digits d.exponent).isSome = true ↔ d.value < f.overflow := by
  rw [← Scientific.value_ratio,
    ← BinaryFormat.ofRatio_lt_infinity_iff hf (den_ratio_pos d.digits d.exponent)]
  unfold BinaryFormat.ofDecimal?
  dsimp only
  split
  · rename_i hfinite
    exact iff_of_true rfl hfinite
  · rename_i hinfinite
    exact iff_of_false Bool.false_ne_true hinfinite

section Exponents

theorem exponentFrom_of_cap_le {value : Nat} (cs : List Char) (h : exponentCap ≤ value) :
    exponentFrom value cs = value := by
  induction cs with
  | nil => rfl
  | cons c cs ih => rw [exponentFrom_cons, if_neg (Nat.not_lt.mpr h), ih]

/-- An exponent that is not taken as it is is still taken as a large one. -/
theorem cap_le_exponentFrom {value : Nat} {cs : List Char}
    (h : exponentCap ≤ digitsFrom value cs) : exponentCap ≤ exponentFrom value cs := by
  induction cs generalizing value with
  | nil => exact h
  | cons c cs ih =>
    rw [exponentFrom_cons]
    split
    · exact ih h
    · rename_i hvalue
      rw [exponentFrom_of_cap_le cs (Nat.not_lt.mp hvalue)]
      exact Nat.not_lt.mp hvalue

theorem digitsFrom_lt {value : Nat} {cs : List Char} (hcs : ∀ c ∈ cs, c.isDigit) :
    digitsFrom value cs < (value + 1) * 10 ^ cs.length := by
  induction cs generalizing value with
  | nil => simp
  | cons c cs ih =>
    have hc := Char.isDigit_iff_toNat.mp (hcs c List.mem_cons_self)
    have hzero : '0'.toNat = 48 := rfl
    have hnine : '9'.toNat = 57 := rfl
    rw [digitsFrom_cons, List.length_cons, Nat.pow_succ', ← Nat.mul_assoc]
    refine Nat.lt_of_lt_of_le (ih fun d hd => hcs d (List.mem_cons_of_mem c hd)) ?_
    exact Nat.mul_le_mul_right _ (by omega)

end Exponents

namespace Numeral

variable {n : Numeral} {f : BinaryFormat}

/-- The number of the text does not overflow. -/
def Fits (n : Numeral) (f : BinaryFormat) : Prop := n.scientific.value < f.overflow

/-- The number that the text is taken for does not overflow: its exponent is counted up to the cap
only, and of very many digits before the point some may not count as places. -/
def FitsAsTaken (n : Numeral) (f : BinaryFormat) : Prop := (n.counted.taken f).value < f.overflow

/-- A numeral is read as a finite float exactly if what it is taken for does not overflow. -/
theorem WrittenAs.exists_readFloat_iff {cs : List Char} (h : n.WrittenAs cs) (hf : f.Wide)
    (negative : Bool) :
    (∃ bits, Decimal.readFloat f (sign negative ++ cs) = .ok bits) ↔ n.FitsAsTaken f := by
  rw [FitsAsTaken, ← Scientific.isSome_ofDecimal?_iff hf, h.readFloat]
  cases f.ofDecimal? _ _ with
  | none => simp
  | some m => simp

/-- The numeral has few digits before its exponent, for the size of the floats, and few before its
point. -/
structure ShortFor (n : Numeral) (f : BinaryFormat) : Prop where
  digits : n.whole.length + n.fraction.length + Nat.pow 2 (f.exponentBits - 1) ≤ exponentCap
  whole : n.whole.length ≤ placeLimit

theorem WrittenAs.length_le {cs : List Char} (h : n.WrittenAs cs) :
    n.whole.length + n.fraction.length ≤ cs.length := by
  obtain ⟨exponent, -, rfl⟩ := h
  have hfraction : n.fraction.length ≤ n.fractionChars.length := by
    unfold fractionChars
    split
    · simp [*]
    · simp
  simp only [List.length_append]
  omega

theorem digitsValue_lt (n : Numeral) :
    digitsValue (n.whole ++ n.fraction) < 10 ^ (n.whole.length + n.fraction.length) := by
  rw [← List.length_append, ← Nat.one_mul (10 ^ _)]
  refine digitsFrom_lt fun c hc => ?_
  exact (List.mem_append.mp hc).elim (n.whole_digits c) (n.fraction_digits c)

theorem value_lt_overflow_of_minus {count : List Char → Nat} {ds : List Char} (hf : f.Wide)
    (hn : n.ShortFor f) (hx : n.exponent = some (true, ds)) (hcount : exponentCap ≤ count ds) :
    (n.scientificBy count).value < f.overflow := by
  have hdigits : (digitsValue (n.whole ++ n.fraction) : ℚ) <
      10 ^ ((n.whole.length + n.fraction.length : Nat) : Int) := by
    exact_mod_cast n.digitsValue_lt
  have hshort := hn.digits
  calc (n.scientificBy count).value
      = digitsValue (n.whole ++ n.fraction) *
          (10 : ℚ) ^ (-(count ds : Int) - n.fraction.length) := by
        simp [scientificBy, exponentBy, hx, Scientific.value]
    _ < 10 ^ ((n.whole.length + n.fraction.length : Nat) : Int) *
          10 ^ (-(count ds : Int) - n.fraction.length) :=
        mul_lt_mul_of_pos_right hdigits (zpow_pos (by norm_num) _)
    _ = 10 ^ ((n.whole.length : Int) - count ds) := by
        rw [← zpow_add₀ (by norm_num)]
        congr 1
        push_cast
        ring
    _ ≤ 10 ^ (0 : Int) := zpow_le_zpow_right₀ (by norm_num) (by omega)
    _ ≤ f.overflow := by
        rw [zpow_zero]
        exact hf.one_lt_overflow.le

theorem overflow_le_value_of_plus {count : List Char → Nat} {ds : List Char} (hn : n.ShortFor f)
    (hx : n.exponent = some (false, ds)) (hcount : exponentCap ≤ count ds)
    (hdigits : digitsValue (n.whole ++ n.fraction) ≠ 0) :
    f.overflow ≤ (n.scientificBy count).value := by
  have hone : (1 : ℚ) ≤ digitsValue (n.whole ++ n.fraction) := by
    exact_mod_cast Nat.one_le_iff_ne_zero.mpr hdigits
  have hshort := hn.digits
  calc f.overflow ≤ 10 ^ ((count ds : Int) - n.fraction.length) :=
        f.overflow_le_ten_zpow (by omega)
    _ ≤ digitsValue (n.whole ++ n.fraction) * 10 ^ ((count ds : Int) - n.fraction.length) :=
        le_mul_of_one_le_left (zpow_pos (by norm_num) _).le hone
    _ = (n.scientificBy count).value := by
        simp [scientificBy, exponentBy, hx, Scientific.value]

/-- For a numeral with few digits it does not matter where counting an exponent stops. -/
theorem ShortFor.fitsAsTaken_iff (hn : n.ShortFor f) (hf : f.Wide) :
    n.FitsAsTaken f ↔ n.Fits f := by
  rw [FitsAsTaken, n.taken_counted f hn.whole]
  by_cases hr : ∀ x ∈ n.exponent, digitsValue x.2 < exponentCap
  · rw [n.scientificBy_exponentFrom hr]
    rfl
  simp only [not_forall, not_lt] at hr
  obtain ⟨⟨negative, ds⟩, hx, hlarge⟩ := hr
  by_cases hdigits : digitsValue (n.whole ++ n.fraction) = 0
  · simp [Fits, scientific, scientificBy, Scientific.value, hdigits]
  cases negative with
  | true =>
    exact iff_of_true (value_lt_overflow_of_minus hf hn hx (cap_le_exponentFrom hlarge))
      (value_lt_overflow_of_minus hf hn hx hlarge)
  | false =>
    have hcounted := overflow_le_value_of_plus hn hx (cap_le_exponentFrom hlarge) hdigits
    have hexact := overflow_le_value_of_plus hn hx hlarge hdigits
    exact iff_of_false hcounted.not_gt hexact.not_gt

end Numeral

end Savefile.Decimal
