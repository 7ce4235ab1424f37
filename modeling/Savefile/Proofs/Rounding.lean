import Mathlib.Data.Int.Log
import Mathlib.Data.Rat.Floor
import Mathlib.Tactic.FieldSimp
import Mathlib.Tactic.Linarith
import Mathlib.Tactic.Positivity
import Mathlib.Tactic.Ring
import Savefile.Decimal.Shortest

/-!
# Rounding to floats

Rounding a quotient to the nearest float depends on its value alone, and a float's own value is
rounded to this float. So every decimal of the same value is read as the same float, and the
shortest one that was found is read as the float that it was found for.
-/
namespace Savefile.Decimal

namespace Ratio

variable {r r' : Ratio} {b : Nat} {e k : Int}

/-- The number that a quotient stands for. -/
def value (r : Ratio) : ℚ := r.num / r.den

theorem value_scale (hb : 0 < b) (r : Ratio) (e : Int) :
    (r.scale b e).value = r.value * (b : ℚ) ^ e := by
  have hb' : (b : ℚ) ≠ 0 := by positivity
  unfold scale
  split
  · rename_i he
    obtain ⟨n, rfl⟩ := Int.eq_ofNat_of_zero_le he
    simp only [value, Int.toNat_natCast, Nat.pow_eq, Nat.cast_mul, Nat.cast_pow, zpow_natCast]
    ring
  · rename_i he
    obtain ⟨n, rfl⟩ : ∃ n : Nat, e = -n := ⟨(-e).toNat, by omega⟩
    simp only [value, neg_neg, Int.toNat_natCast, Nat.pow_eq, Nat.cast_mul, Nat.cast_pow, zpow_neg,
      zpow_natCast]
    field_simp

theorem den_scale_pos (hr : 0 < r.den) (hb : 0 < b) : 0 < (r.scale b e).den := by
  unfold scale
  split
  · exact hr
  · exact Nat.mul_pos hr (Nat.pow_pos hb)

theorem value_pos (hn : 0 < r.num) (hd : 0 < r.den) : 0 < r.value :=
  div_pos (Nat.cast_pos.mpr hn) (Nat.cast_pos.mpr hd)

theorem num_eq_zero_iff (hd : 0 < r.den) : r.num = 0 ↔ r.value = 0 := by
  have hd' : (r.den : ℚ) ≠ 0 := Nat.cast_ne_zero.mpr hd.ne'
  simp [value, div_eq_zero_iff, hd']

theorem one_le_floor_iff (hd : 0 < r.den) : 1 ≤ r.floor ↔ 1 ≤ r.value := by
  have hd' : (0 : ℚ) < r.den := Nat.cast_pos.mpr hd
  rw [floor, Nat.le_div_iff_mul_le hd, value, one_le_div hd', one_mul, Nat.cast_le]

section Log

/-- A logarithm is known from the powers on both sides. -/
theorem log_eq {v : ℚ} (hlow : (2 : ℚ) ^ k ≤ v) (hhigh : v < 2 ^ (k + 1)) : Int.log 2 v = k := by
  have hv : 0 < v := lt_of_lt_of_le (zpow_pos two_pos k) hlow
  have h₁ := (Int.zpow_le_iff_le_log (b := 2) (by decide) hv).mp (by exact_mod_cast hlow)
  have h₂ := (Int.lt_zpow_iff_log_lt (b := 2) (by decide) hv).mp (by exact_mod_cast hhigh)
  omega

theorem le_value_of_log2 (hn : 0 < r.num) (hd : 0 < r.den) :
    (2 : ℚ) ^ ((r.num.log2 : Int) - r.den.log2 - 1) ≤ r.value := by
  have hnum : (2 : ℚ) ^ r.num.log2 ≤ r.num := by exact_mod_cast Nat.log2_self_le hn.ne'
  have hden : (r.den : ℚ) ≤ 2 ^ (r.den.log2 + 1) := by exact_mod_cast Nat.lt_log2_self.le
  have hd' : (0 : ℚ) < r.den := Nat.cast_pos.mpr hd
  have hsplit : (2 : ℚ) ^ ((r.num.log2 : Int) - r.den.log2 - 1) =
      2 ^ r.num.log2 / 2 ^ (r.den.log2 + 1) := by
    rw [sub_sub, zpow_sub₀ two_ne_zero]
    exact_mod_cast rfl
  rw [hsplit, value]
  gcongr

theorem value_lt_of_log2 (hd : 0 < r.den) :
    r.value < (2 : ℚ) ^ ((r.num.log2 : Int) - r.den.log2 + 1) := by
  have hnum : (r.num : ℚ) < 2 ^ (r.num.log2 + 1) := by exact_mod_cast Nat.lt_log2_self
  have hden : (2 : ℚ) ^ r.den.log2 ≤ r.den := by exact_mod_cast Nat.log2_self_le hd.ne'
  have hsplit : (2 : ℚ) ^ ((r.num.log2 : Int) - r.den.log2 + 1) =
      2 ^ (r.num.log2 + 1) / 2 ^ r.den.log2 := by
    rw [sub_add_eq_add_sub, zpow_sub₀ two_ne_zero]
    exact_mod_cast rfl
  rw [hsplit, value]
  gcongr

theorem log2_eq (hn : 0 < r.num) (hd : 0 < r.den) : r.log2 = Int.log 2 r.value := by
  have hfloor : ∀ k : Int, 1 ≤ (r.scale 2 (-k)).floor ↔ (2 : ℚ) ^ k ≤ r.value := by
    intro k
    have hpos : (0 : ℚ) < 2 ^ k := zpow_pos two_pos k
    rw [one_le_floor_iff (den_scale_pos hd (by decide)), value_scale (by decide), Nat.cast_ofNat,
      zpow_neg, ← div_eq_mul_inv, one_le_div hpos]
  unfold log2
  dsimp only
  split
  · rename_i h
    exact (log_eq ((hfloor _).mp h) (value_lt_of_log2 hd)).symm
  · rename_i h
    rw [hfloor, not_le] at h
    exact (log_eq (le_value_of_log2 hn hd) (by simpa using h)).symm

end Log

section Nearest

/-- A common factor changes nothing. -/
theorem nearest_mul {n d : Nat} (hk : 0 < b) : nearest ⟨n * b, d * b⟩ = nearest ⟨n, d⟩ := by
  have hdouble : 2 * (n % d * b) = 2 * (n % d) * b := by ring
  simp only [nearest, Nat.mul_div_mul_right _ _ hk, Nat.mul_mod_mul_right, hdouble,
    Nat.mul_lt_mul_right hk, beq_iff_eq, Nat.mul_left_inj hk.ne', Bool.or_eq_true, Bool.and_eq_true,
    decide_eq_true_eq]

theorem nearest_congr (hd : 0 < r.den) (hd' : 0 < r'.den) (h : r.value = r'.value) :
    r.nearest = r'.nearest := by
  have hcross : r.num * r'.den = r'.num * r.den := by
    have hd₁ : (r.den : ℚ) ≠ 0 := Nat.cast_ne_zero.mpr hd.ne'
    have hd₂ : (r'.den : ℚ) ≠ 0 := Nat.cast_ne_zero.mpr hd'.ne'
    rw [value, value, div_eq_div_iff hd₁ hd₂] at h
    exact_mod_cast h
  calc r.nearest = nearest ⟨r.num * r'.den, r.den * r'.den⟩ := (nearest_mul hd').symm
    _ = nearest ⟨r'.num * r.den, r'.den * r.den⟩ := by rw [hcross, Nat.mul_comm r.den]
    _ = r'.nearest := nearest_mul hd

theorem nearest_natCast (n : Nat) (hd : 0 < r.den) (h : r.value = n) : r.nearest = n := by
  have hone : r.value = (⟨n, 1⟩ : Ratio).value := by rw [h, value, Nat.cast_one, div_one]
  rw [nearest_congr hd Nat.one_pos hone]
  simp [nearest, Nat.mod_one]

/-- Less than a half is rounded to nothing. -/
theorem nearest_eq_zero (hd : 0 < r.den) (h : r.value < 1 / 2) : r.nearest = 0 := by
  have hd' : (0 : ℚ) < r.den := Nat.cast_pos.mpr hd
  have hhalf : 2 * r.num < r.den := by
    rw [value, div_lt_div_iff₀ hd' two_pos] at h
    have : (2 * r.num : ℚ) < r.den := by linarith
    exact_mod_cast this
  have hnum : r.num < r.den := by omega
  simp only [nearest, Nat.div_eq_of_lt hnum, Nat.mod_eq_of_lt hnum]
  rw [if_neg]
  simp only [Bool.or_eq_true, Bool.and_eq_true, decide_eq_true_eq, beq_iff_eq]
  omega

end Nearest

end Ratio

namespace BinaryFormat

variable (f : BinaryFormat) {m : Nat} {r r' : Ratio}

/-- The nearest float depends on the value of a quotient alone. -/
theorem ofRatio_congr (hd : 0 < r.den) (hd' : 0 < r'.den) (h : r.value = r'.value) :
    f.ofRatio r = f.ofRatio r' := by
  have hzero : r.num = 0 ↔ r'.num = 0 := by
    rw [Ratio.num_eq_zero_iff hd, Ratio.num_eq_zero_iff hd', h]
  unfold ofRatio
  by_cases hn : r.num = 0
  · rw [if_pos hn, if_pos (hzero.mp hn)]
  · have hn' : r'.num ≠ 0 := fun h0 => hn (hzero.mpr h0)
    have hlog : r.log2 = r'.log2 := by
      rw [Ratio.log2_eq (Nat.pos_of_ne_zero hn) hd, Ratio.log2_eq (Nat.pos_of_ne_zero hn') hd', h]
    rw [if_neg hn, if_neg hn', hlog]
    dsimp only
    rw [Ratio.nearest_congr (Ratio.den_scale_pos hd two_pos) (Ratio.den_scale_pos hd' two_pos)]
    rw [Ratio.value_scale two_pos, Ratio.value_scale two_pos, h]

theorem value_toRatio (m : Nat) :
    (f.toRatio m).value = f.significand m * (2 : ℚ) ^ f.exponent m := by
  rw [toRatio, Ratio.value_scale two_pos]
  simp [Ratio.value]

theorem den_toRatio_pos (m : Nat) : 0 < (f.toRatio m).den := Ratio.den_scale_pos one_pos two_pos

theorem significand_pos (hm : 0 < m) : 0 < f.significand m := by
  unfold significand
  split
  · exact hm
  · exact Nat.add_pos_right _ (Nat.pow_pos two_pos)

theorem num_toRatio_pos (hm : 0 < m) : 0 < (f.toRatio m).num := by
  have hvalue : 0 < (f.toRatio m).value := by
    rw [value_toRatio]
    exact mul_pos (Nat.cast_pos.mpr (f.significand_pos hm)) (zpow_pos two_pos _)
  by_contra hnum
  rw [not_lt, Nat.le_zero, Ratio.num_eq_zero_iff (f.den_toRatio_pos m)] at hnum
  exact hvalue.ne' hnum

/-- The exponent that rounding chooses for the value of a float is the float's own. -/
theorem max_log2_toRatio (hm : 0 < m) :
    max f.leastExponent ((f.toRatio m).log2 - f.fractionBits) = f.exponent m := by
  rw [Ratio.log2_eq (f.num_toRatio_pos hm) (f.den_toRatio_pos m), value_toRatio]
  by_cases hsmall : m < Nat.pow 2 f.fractionBits
  · -- Below the first power the significand has fewer bits, and the exponent is the least.
    have hexp : f.exponent m = f.leastExponent := by
      rw [exponent, Nat.div_eq_of_lt hsmall]
      simp
    have hvalue : (f.significand m : ℚ) * 2 ^ f.leastExponent <
        2 ^ ((f.fractionBits : Int) + f.leastExponent) := by
      have hm' : (m : ℚ) < 2 ^ (f.fractionBits : Int) := by exact_mod_cast hsmall
      rw [significand, if_pos hsmall, zpow_add₀ two_ne_zero]
      exact mul_lt_mul_of_pos_right hm' (zpow_pos two_pos _)
    have hpos : (0 : ℚ) < f.significand m * 2 ^ f.leastExponent :=
      mul_pos (Nat.cast_pos.mpr (f.significand_pos hm)) (zpow_pos two_pos _)
    have hlog := (Int.lt_zpow_iff_log_lt (b := 2) (by decide) hpos).mp (by exact_mod_cast hvalue)
    rw [hexp]
    omega
  · have hsig : f.significand m = m % Nat.pow 2 f.fractionBits + Nat.pow 2 f.fractionBits :=
      if_neg hsmall
    have hmod : m % Nat.pow 2 f.fractionBits < Nat.pow 2 f.fractionBits :=
      Nat.mod_lt _ (Nat.pow_pos two_pos)
    have hlow : (2 : ℚ) ^ (f.fractionBits : Int) ≤ f.significand m := by
      have : Nat.pow 2 f.fractionBits ≤ f.significand m := by omega
      exact_mod_cast this
    have hhigh : (f.significand m : ℚ) < 2 ^ ((f.fractionBits : Int) + 1) := by
      have : f.significand m < 2 ^ (f.fractionBits + 1) := by
        rw [Nat.pow_succ, ← Nat.pow_eq]
        omega
      exact_mod_cast this
    have hlog : Int.log 2 ((f.significand m : ℚ) * 2 ^ f.exponent m) =
        f.fractionBits + f.exponent m := by
      refine Ratio.log_eq ?_ ?_
      · rw [zpow_add₀ two_ne_zero]
        exact mul_le_mul_of_nonneg_right hlow (zpow_pos two_pos _).le
      · rw [add_right_comm, zpow_add₀ two_ne_zero]
        exact mul_lt_mul_of_pos_right hhigh (zpow_pos two_pos _)
    have hleast : f.leastExponent ≤ f.exponent m := by
      rw [exponent]
      omega
    rw [hlog]
    omega

/-- The value of a float is rounded to this float. -/
theorem ofRatio_toRatio (m : Nat) : f.ofRatio (f.toRatio m) = m := by
  have hpow : 0 < Nat.pow 2 f.fractionBits := Nat.pow_pos two_pos
  rcases Nat.eq_zero_or_pos m with rfl | hm
  · have hnum : (f.toRatio 0).num = 0 := by
      rw [Ratio.num_eq_zero_iff (f.den_toRatio_pos 0), value_toRatio, significand, if_pos hpow]
      simp
    rw [ofRatio, if_pos hnum]
  · have hnearest : ((f.toRatio m).scale 2 (-f.exponent m)).nearest = f.significand m := by
      refine Ratio.nearest_natCast _ (Ratio.den_scale_pos (f.den_toRatio_pos m) two_pos) ?_
      rw [Ratio.value_scale two_pos, value_toRatio, Nat.cast_ofNat, mul_assoc,
        ← zpow_add₀ two_ne_zero, add_neg_cancel, zpow_zero, mul_one]
    have hdiv := Nat.div_add_mod m (Nat.pow 2 f.fractionBits)
    rw [ofRatio, if_neg (f.num_toRatio_pos hm).ne']
    dsimp only
    rw [f.max_log2_toRatio hm, hnearest, exponent, add_sub_cancel_left, Int.toNat_natCast,
      significand]
    split
    · rename_i hsmall
      rw [Nat.div_eq_of_lt hsmall]
      simp
    · rename_i hlarge
      obtain ⟨q, hq⟩ : ∃ q, m / Nat.pow 2 f.fractionBits = q + 1 :=
        ⟨_, (Nat.succ_pred_eq_of_pos (Nat.div_pos (not_lt.mp hlarge) hpow)).symm⟩
      rw [hq, Nat.mul_succ] at hdiv
      rw [hq, Nat.add_sub_cancel, Nat.mul_comm]
      omega

/-- What lies far enough above the finite floats is out of range. -/
theorem infinity_le_ofRatio (hbits : 0 < f.exponentBits) (hd : 0 < r.den)
    (h : (2 : ℚ) ^ (Nat.pow 2 (f.exponentBits - 1) + 1) ≤ r.value) : f.infinity ≤ f.ofRatio r := by
  have hvalue : 0 < r.value := lt_of_lt_of_le (pow_pos two_pos _) h
  have hn : r.num ≠ 0 := fun h0 => hvalue.ne' ((Ratio.num_eq_zero_iff hd).mp h0)
  have hpower : ((2 : ℕ) : ℚ) ^ ((Nat.pow 2 (f.exponentBits - 1) + 1 : ℕ) : ℤ) ≤ r.value := by
    rw [zpow_natCast, Nat.cast_ofNat]
    exact h
  have hlog := (Int.zpow_le_iff_le_log (by decide) hvalue).mp hpower
  rw [← Ratio.log2_eq (Nat.pos_of_ne_zero hn) hd] at hlog
  have htwice : Nat.pow 2 f.exponentBits = 2 * Nat.pow 2 (f.exponentBits - 1) := by
    rw [Nat.pow_eq, Nat.pow_eq, ← Nat.pow_succ', Nat.succ_eq_add_one, Nat.sub_add_cancel hbits]
  have hsteps : Nat.pow 2 f.exponentBits - 1 ≤
      (max f.leastExponent (r.log2 - f.fractionBits) - f.leastExponent).toNat := by
    rw [leastExponent, htwice]
    omega
  rw [ofRatio, if_neg hn, infinity]
  exact Nat.le_add_right_of_le (Nat.mul_le_mul_right _ hsteps)

/-- What lies far enough below the positive floats is rounded to zero. -/
theorem ofRatio_eq_zero (hd : 0 < r.den) (h : r.value < (2 : ℚ) ^ (f.leastExponent - 1)) :
    f.ofRatio r = 0 := by
  rw [ofRatio]
  split
  · rfl
  · rename_i hn
    have hvalue := Ratio.value_pos (Nat.pos_of_ne_zero hn) hd
    have hlog := (Int.lt_zpow_iff_log_lt (b := 2) (by decide) hvalue).mp (by exact_mod_cast h)
    have he : max f.leastExponent (r.log2 - f.fractionBits) = f.leastExponent := by
      rw [Ratio.log2_eq (Nat.pos_of_ne_zero hn) hd]
      omega
    have hnearest : (r.scale 2 (-f.leastExponent)).nearest = 0 := by
      refine Ratio.nearest_eq_zero (Ratio.den_scale_pos hd two_pos) ?_
      rw [Ratio.value_scale two_pos, Nat.cast_ofNat]
      calc r.value * (2 : ℚ) ^ (-f.leastExponent)
          < 2 ^ (f.leastExponent - 1) * 2 ^ (-f.leastExponent) :=
            mul_lt_mul_of_pos_right h (zpow_pos two_pos _)
        _ = 1 / 2 := by
            rw [← zpow_add₀ two_ne_zero, sub_add_eq_add_sub, add_neg_cancel, zero_sub, zpow_neg_one,
              one_div]
    simp [he, hnearest]

end BinaryFormat

namespace Scientific

variable {f : BinaryFormat} {m : Nat} {d d' : Scientific}

/-- The number that a decimal stands for. -/
def value (d : Scientific) : ℚ := d.digits * (10 : ℚ) ^ d.exponent

theorem value_ratio (digits : Nat) (exponent : Int) :
    (Ratio.scale ⟨digits, 1⟩ 10 exponent).value = (⟨digits, exponent⟩ : Scientific).value := by
  rw [Ratio.value_scale (by decide)]
  simp [Ratio.value, value]

theorem den_ratio_pos (digits : Nat) (exponent : Int) :
    0 < (Ratio.scale ⟨digits, 1⟩ 10 exponent).den :=
  Ratio.den_scale_pos Nat.one_pos (by decide)

theorem ofDecimal?_congr (h : d.value = d'.value) :
    f.ofDecimal? d.digits d.exponent = f.ofDecimal? d'.digits d'.exponent := by
  have hratio := f.ofRatio_congr (den_ratio_pos d.digits d.exponent)
    (den_ratio_pos d'.digits d'.exponent) (by rw [value_ratio, value_ratio, h])
  simp only [BinaryFormat.ofDecimal?, hratio]

theorem readsAs_iff : d.readsAs f m = true ↔ f.ofDecimal? d.digits d.exponent = some m := by
  simp [readsAs]

/-- A decimal with the value of a finite float is read as this float. -/
theorem readsAs_of_value (hm : m < f.infinity) (h : d.value = (f.toRatio m).value) :
    d.readsAs f m = true := by
  have hratio := f.ofRatio_congr (den_ratio_pos d.digits d.exponent) (f.den_toRatio_pos m)
    (by rw [value_ratio, h])
  rw [readsAs_iff, BinaryFormat.ofDecimal?, hratio, f.ofRatio_toRatio]
  exact if_pos hm

theorem value_stripZeros (fuel : Nat) (d : Scientific) : (stripZeros fuel d).value = d.value := by
  induction fuel generalizing d with
  | zero => rfl
  | succ fuel ih =>
    rw [stripZeros]
    split
    · rename_i hzero
      rw [Bool.and_eq_true, beq_iff_eq] at hzero
      have hdigits : (d.digits : ℚ) = (d.digits / 10 : Nat) * 10 := by
        have hten : d.digits = d.digits / 10 * 10 := by omega
        exact_mod_cast hten
      rw [ih, value, value, hdigits, zpow_add₀ (by norm_num), zpow_one]
      ring
    · rfl

/-- The decimal of a positive finite float lies between two powers of two. -/
theorem value_bounds (hbits : 0 < f.exponentBits) (hm : 0 < m) (h : d.readsAs f m = true) :
    (2 : ℚ) ^ (f.leastExponent - 1) ≤ d.value ∧
      d.value < 2 ^ (Nat.pow 2 (f.exponentBits - 1) + 1) := by
  rw [readsAs_iff, BinaryFormat.ofDecimal?] at h
  split at h
  · rename_i hfinite
    cases h
    have hd := den_ratio_pos d.digits d.exponent
    constructor
    · by_contra hlow
      rw [not_le, ← value_ratio] at hlow
      rw [f.ofRatio_eq_zero hd hlow] at hm
      exact lt_irrefl 0 hm
    · by_contra hhigh
      rw [not_lt, ← value_ratio] at hhigh
      exact absurd (f.infinity_le_ofRatio hbits hd hhigh) (not_le.mpr hfinite)
  · cases h

end Scientific

section Shortest

variable {f : BinaryFormat} {m : Nat}

theorem readsAs_of_gridHit? {value : Ratio} {k : Int} {d : Scientific}
    (h : gridHit? f m value k = some d) : d.readsAs f m = true := by
  unfold gridHit? at h
  dsimp only at h
  split at h
  · rename_i hbelow habove
    cases h
    split
    · exact hbelow
    · exact habove
  · rename_i hbelow _
    cases h
    exact hbelow
  · rename_i _ habove
    cases h
    exact habove
  · cases h

theorem value_exactDecimal (f : BinaryFormat) (m : Nat) :
    (exactDecimal f m).value = (f.toRatio m).value := by
  rw [f.value_toRatio, exactDecimal]
  split
  · rename_i he
    obtain ⟨n, hn⟩ := Int.eq_ofNat_of_zero_le he
    simp [Scientific.value, hn]
  · rename_i he
    obtain ⟨n, hn⟩ : ∃ n : Nat, f.exponent m = -n := ⟨(-f.exponent m).toNat, by omega⟩
    have hten : (10 : ℚ) = 5 * 2 := by norm_num
    simp only [Scientific.value, hn, neg_neg, Int.toNat_natCast, Nat.pow_eq, Nat.cast_mul,
      Nat.cast_pow, Nat.cast_ofNat, zpow_neg, zpow_natCast, hten, mul_pow]
    field_simp

/-- The shortest decimal of a finite float is read as this float. -/
theorem readsAs_shortest (hm : m < f.infinity) : (shortest f m).readsAs f m = true := by
  unfold shortest
  split
  · rename_i hzero
    subst hzero
    simpa [Scientific.readsAs_iff, BinaryFormat.ofDecimal?, BinaryFormat.ofRatio, Ratio.scale]
      using hm.ne'
  · dsimp only
    rw [Scientific.readsAs_iff, Scientific.ofDecimal?_congr (Scientific.value_stripZeros _ _),
      ← Scientific.readsAs_iff]
    cases hhit : List.findSome? _ _ with
    | none => exact Scientific.readsAs_of_value hm (value_exactDecimal f m)
    | some d =>
      obtain ⟨k, _, hk⟩ := List.exists_of_findSome?_eq_some hhit
      exact readsAs_of_gridHit? hk

end Shortest

end Savefile.Decimal
