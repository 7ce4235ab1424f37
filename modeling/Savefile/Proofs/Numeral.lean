import Savefile.Decimal.Layout
import Savefile.Decimal.Reading
import Savefile.Proofs.Result
import Savefile.Proofs.Rounding

/-!
# Numerals

A number as text is a numeral: digits, a fraction, an exponent. Reading a numeral as a float gives
the decimal that its parts stand for, unless its exponent is too large to be counted or it has very
many digits before the point. Reading it as a whole number accepts the numerals that have digits
only, and gives the number of the digits.
-/
namespace Savefile.Decimal

section Digits

@[simp] theorem digitsFrom_nil (value : Nat) : digitsFrom value [] = value := rfl

@[simp] theorem digitsFrom_cons (value : Nat) (c : Char) (cs : List Char) :
    digitsFrom value (c :: cs) = digitsFrom (value * 10 + (c.toNat - '0'.toNat)) cs := (rfl)

theorem exponentFrom_cons (value : Nat) (c : Char) (cs : List Char) :
    exponentFrom value (c :: cs) =
      exponentFrom (if value < exponentCap then value * 10 + (c.toNat - '0'.toNat) else value) cs :=
  (rfl)

theorem digitsFrom_append (value : Nat) (cs ds : List Char) :
    digitsFrom value (cs ++ ds) = digitsFrom (digitsFrom value cs) ds := by
  induction cs generalizing value with
  | nil => rfl
  | cons c cs ih => exact ih _

theorem digitsFrom_replicate_zero (value n : Nat) :
    digitsFrom value (List.replicate n '0') = value * 10 ^ n := by
  induction n generalizing value with
  | zero => simp
  | succ n ih =>
    rw [List.replicate_succ, digitsFrom_cons, ih, Nat.sub_self, Nat.add_zero, Nat.pow_succ',
      Nat.mul_assoc]

theorem le_digitsFrom (value : Nat) (cs : List Char) : value ≤ digitsFrom value cs := by
  induction cs generalizing value with
  | nil => exact Nat.le_refl _
  | cons c cs ih =>
    rw [digitsFrom_cons]
    have hcons := ih (value * 10 + (c.toNat - '0'.toNat))
    omega

theorem digitsValue_digitChars (n : Nat) : digitsValue (digitChars n) = n := by
  rw [digitsValue, digitChars]
  induction n using Nat.strongRecOn with
  | _ n ih =>
    rw [Nat.toDigits_eq_if (by decide)]
    split
    · rename_i hn
      simp [Nat.toNat_digitChar_of_lt_ten hn]
    · have hlast : (Nat.digitChar (n % 10)).toNat = 48 + n % 10 :=
        Nat.toNat_digitChar_of_lt_ten (Nat.mod_lt _ (by decide))
      rw [digitsFrom_append, ih _ (by omega), digitsFrom_cons, digitsFrom_nil, hlast]
      have hzero : '0'.toNat = 48 := rfl
      omega

theorem isDigit_of_mem_digitChars {n : Nat} {c : Char} (hc : c ∈ digitChars n) : c.isDigit :=
  Nat.isDigit_of_mem_toDigits (by decide) (by decide) hc

theorem digitChars_ne_nil (n : Nat) : digitChars n ≠ [] := Nat.toDigits_ne_nil

/-- Only zero is written with a zero in front. -/
theorem head?_digitChars {n : Nat} (hn : n ≠ 0) : (digitChars n).head? ≠ some '0' := by
  rw [digitChars]
  induction n using Nat.strongRecOn with
  | _ n ih =>
    rw [Nat.toDigits_eq_if (by decide)]
    split
    · simpa using hn
    · rw [List.head?_append_of_ne_nil _ Nat.toDigits_ne_nil]
      exact ih _ (by omega) (by omega)

theorem exponentFrom_eq {value : Nat} {cs : List Char} (h : digitsFrom value cs < exponentCap) :
    exponentFrom value cs = digitsFrom value cs := by
  induction cs generalizing value with
  | nil => rfl
  | cons c cs ih =>
    have hvalue : value < exponentCap := Nat.lt_of_le_of_lt (le_digitsFrom value (c :: cs)) h
    rw [exponentFrom_cons, if_pos hvalue, ih h, digitsFrom_cons]

end Digits

section Runs

variable {ds rest : List Char}

/-- No digit stands in front. -/
def NoDigitFirst (cs : List Char) : Prop := ∀ c, cs.head? = some c → c.isDigit = false

theorem noDigitFirst_nil : NoDigitFirst [] := by simp [NoDigitFirst]

theorem NoDigitFirst.takeWhile (h : NoDigitFirst rest) : rest.takeWhile Char.isDigit = [] := by
  cases rest with
  | nil => rfl
  | cons c cs => exact List.takeWhile_cons_of_neg (by simp [h c rfl])

theorem NoDigitFirst.dropWhile (h : NoDigitFirst rest) : rest.dropWhile Char.isDigit = rest := by
  cases rest with
  | nil => rfl
  | cons c cs => exact List.dropWhile_cons_of_neg (by simp [h c rfl])

theorem takeWhile_digits (hds : ∀ c ∈ ds, c.isDigit) (h : NoDigitFirst rest) :
    (ds ++ rest).takeWhile Char.isDigit = ds := by
  rw [List.takeWhile_append_of_pos hds, h.takeWhile, List.append_nil]

theorem dropWhile_digits (hds : ∀ c ∈ ds, c.isDigit) (h : NoDigitFirst rest) :
    (ds ++ rest).dropWhile Char.isDigit = rest := by
  rw [List.dropWhile_append_of_pos hds, h.dropWhile]

end Runs

/-- A number as text, in its parts: the digits before and after the point, and the digits of an
exponent with its sign. -/
structure Numeral where
  whole : List Char
  fraction : List Char
  exponent : Option (Bool × List Char)
  whole_digits : ∀ c ∈ whole, c.isDigit
  whole_ne_nil : whole ≠ []
  /-- A zero stands in front only by itself. -/
  leading : whole = ['0'] ∨ whole.head? ≠ some '0'
  fraction_digits : ∀ c ∈ fraction, c.isDigit
  exponent_digits : ∀ x ∈ exponent, x.2 ≠ [] ∧ ∀ c ∈ x.2, c.isDigit

namespace Numeral

variable (n : Numeral)

/-- A sign, if there is one. -/
def sign (negative : Bool) : List Char := if negative then ['-'] else []

/-- The point and the digits after it, if there are any. -/
def fractionChars : List Char := if n.fraction = [] then [] else '.' :: n.fraction

/-- The exponent with its mark, if there is one. -/
def exponentChars : List Char :=
  (n.exponent.map fun x => 'e' :: (if x.1 then '-' else '+') :: x.2).getD []

def chars : List Char := n.whole ++ (n.fractionChars ++ n.exponentChars)

def exponentValue : Int :=
  (n.exponent.map fun x => if x.1 then -(digitsValue x.2 : Int) else digitsValue x.2).getD 0

/-- The decimal that a numeral stands for. -/
def scientific : Scientific :=
  ⟨digitsValue (n.whole ++ n.fraction), n.exponentValue - n.fraction.length⟩

/-- The exponent, its digits counted in a given way. -/
def exponentBy (count : List Char → Nat) : Int :=
  (n.exponent.map fun x => if x.1 then -(count x.2 : Int) else count x.2).getD 0

/-- The decimal that a numeral stands for, the digits of its exponent counted in a given way. -/
def scientificBy (count : List Char → Nat) : Scientific :=
  ⟨digitsValue (n.whole ++ n.fraction), n.exponentBy count - n.fraction.length⟩

/-- The parts as they are read. -/
def counted : DecimalText := ⟨n.whole, n.fraction, n.exponentBy (exponentFrom 0)⟩

/-- With few digits before the point, all of them count as places. -/
theorem taken_counted (f : BinaryFormat) (hn : n.whole.length ≤ placeLimit) :
    n.counted.taken f = n.scientificBy (exponentFrom 0) := by
  have hlost : n.counted.lostPlaces = 0 :=
    Nat.sub_eq_zero_of_le ((List.dropWhile_sublist _).length_le.trans hn)
  rw [DecimalText.taken, if_pos hlost]
  rfl

/-- The exponent is small enough, and the digits before the point are few enough, for the number to
be taken as it is. -/
structure Readable : Prop where
  exponent : ∀ x ∈ n.exponent, digitsValue x.2 < exponentCap
  whole : n.whole.length ≤ placeLimit

theorem scientificBy_exponentFrom (hn : ∀ x ∈ n.exponent, digitsValue x.2 < exponentCap) :
    n.scientificBy (exponentFrom 0) = n.scientific := by
  have hexponent : n.exponentBy (exponentFrom 0) = n.exponentValue := by
    unfold exponentBy exponentValue
    rcases hx : n.exponent with _ | x
    · rfl
    · have hvalue : exponentFrom 0 x.2 = digitsValue x.2 := exponentFrom_eq (hn x hx)
      rw [Option.map_some, Option.map_some, hvalue]
  rw [scientificBy, hexponent, scientific]

/-- The ways to write an exponent: with a mark in either case, and with or without a plus. -/
inductive ExponentText : Option (Bool × List Char) → List Char → Prop
  | absent : ExponentText none []
  | minus {mark : Char} {ds : List Char} : mark = 'e' ∨ mark = 'E' →
      ExponentText (some (true, ds)) (mark :: '-' :: ds)
  | plus {mark : Char} {ds : List Char} : mark = 'e' ∨ mark = 'E' →
      ExponentText (some (false, ds)) (mark :: '+' :: ds)
  | plain {mark : Char} {ds : List Char} : mark = 'e' ∨ mark = 'E' →
      ExponentText (some (false, ds)) (mark :: ds)

/-- A text of a numeral, without a sign. -/
def WrittenAs (cs : List Char) : Prop :=
  ∃ exponent, ExponentText n.exponent exponent ∧ cs = n.whole ++ (n.fractionChars ++ exponent)

theorem writtenAs_chars : n.WrittenAs n.chars := by
  refine ⟨n.exponentChars, ?_, rfl⟩
  unfold exponentChars
  rcases n.exponent with _ | ⟨negative, ds⟩
  · exact .absent
  · cases negative with
    | false => exact .plus (.inl rfl)
    | true => exact .minus (.inl rfl)

theorem ExponentText.cases_first {x : Option (Bool × List Char)} {cs : List Char}
    (h : ExponentText x cs) :
    cs = [] ∨ ∃ mark rest, cs = mark :: rest ∧ (mark = 'e' ∨ mark = 'E') := by
  cases h with
  | absent => exact .inl rfl
  | minus hmark | plus hmark | plain hmark => exact .inr ⟨_, _, rfl, hmark⟩

theorem ExponentText.noDigitFirst {x : Option (Bool × List Char)} {cs : List Char}
    (h : ExponentText x cs) : NoDigitFirst cs := by
  obtain rfl | ⟨mark, rest, rfl, rfl | rfl⟩ := h.cases_first
  · exact noDigitFirst_nil
  all_goals
    rintro c ⟨⟩
    rfl

theorem readExponent?_of_exponentText {cs : List Char} (h : ExponentText n.exponent cs) :
    readExponent? cs = some (n.exponentBy (exponentFrom 0)) := by
  have hdigits := n.exponent_digits
  unfold exponentBy
  generalize n.exponent = x at h hdigits
  cases h with
  | absent => rfl
  | @minus mark ds hmark =>
    obtain ⟨hne, hds⟩ := hdigits _ rfl
    have hall : ds.all Char.isDigit = true := List.all_eq_true.mpr hds
    simp [readExponent?, hmark, hne, hall]
  | @plus mark ds hmark =>
    obtain ⟨hne, hds⟩ := hdigits _ rfl
    have hall : ds.all Char.isDigit = true := List.all_eq_true.mpr hds
    simp [readExponent?, hmark, hne, hall]
  | @plain mark ds hmark =>
    obtain ⟨hne, hds⟩ := hdigits _ rfl
    have hall : ds.all Char.isDigit = true := List.all_eq_true.mpr hds
    obtain ⟨d, ds, rfl⟩ := List.exists_cons_of_ne_nil hne
    have hminus : d ≠ '-' := by
      rintro rfl
      cases hds '-' List.mem_cons_self
    have hplus : d ≠ '+' := by
      rintro rfl
      cases hds '+' List.mem_cons_self
    simp [readExponent?, hmark, hminus, hplus, hall]

theorem exponentChars_cases : n.exponentChars = [] ∨ ∃ cs, n.exponentChars = 'e' :: cs := by
  unfold exponentChars
  cases n.exponent with
  | none => exact .inl rfl
  | some x => exact .inr ⟨_, rfl⟩

theorem noDigitFirst_exponentChars {rest : List Char} (h : NoDigitFirst rest) :
    NoDigitFirst (n.exponentChars ++ rest) := by
  rcases n.exponentChars_cases with hx | ⟨cs, hx⟩
  · rw [hx]
    exact h
  · rw [hx]
    rintro c ⟨⟩
    rfl

theorem noDigitFirst_fractionChars {rest : List Char} (h : NoDigitFirst rest) :
    NoDigitFirst (n.fractionChars ++ (n.exponentChars ++ rest)) := by
  unfold fractionChars
  split
  · exact n.noDigitFirst_exponentChars h
  · rintro c ⟨⟩
    rfl

variable {n} in
theorem WrittenAs.exists_cons {cs : List Char} (h : n.WrittenAs cs) :
    ∃ c rest, cs = c :: rest ∧ c.isDigit := by
  obtain ⟨exponent, -, rfl⟩ := h
  obtain ⟨c, rest, hwhole⟩ := List.exists_cons_of_ne_nil n.whole_ne_nil
  refine ⟨c, rest ++ (n.fractionChars ++ exponent), ?_, ?_⟩
  · rw [hwhole, List.cons_append]
  · exact n.whole_digits c (hwhole ▸ List.mem_cons_self)

variable {n} in
/-- A numeral starts with no sign of its own. -/
theorem WrittenAs.exists_unsigned {cs : List Char} (h : n.WrittenAs cs) :
    ∃ c rest, cs = c :: rest ∧ c ≠ '-' ∧ c ≠ '+' := by
  obtain ⟨c, rest, hcs, hc⟩ := h.exists_cons
  refine ⟨c, rest, hcs, ?_, ?_⟩
  · rintro rfl
    cases hc
  · rintro rfl
    cases hc

theorem noDigitFirst_after_whole {exponent : List Char} (hx : ExponentText n.exponent exponent) :
    NoDigitFirst (n.fractionChars ++ exponent) := by
  unfold fractionChars
  split
  · exact hx.noDigitFirst
  · rintro c ⟨⟩
    rfl

variable {n} in
theorem WrittenAs.readDecimal? {cs : List Char} (h : n.WrittenAs cs) :
    readDecimal? cs = some n.counted := by
  obtain ⟨exponent, hx, rfl⟩ := h
  have hpoint := n.noDigitFirst_after_whole hx
  have hwhole := takeWhile_digits n.whole_digits hpoint
  have hrest := dropWhile_digits n.whole_digits hpoint
  have hexponent := n.readExponent?_of_exponentText hx
  rw [Decimal.readDecimal?, hwhole, hrest, counted, fractionChars]
  by_cases hfraction : n.fraction = []
  · rw [if_pos hfraction, List.nil_append]
    -- without a fraction the exponent, or nothing, stands where the point would
    obtain rfl | ⟨mark, rest, rfl, rfl | rfl⟩ := hx.cases_first
    all_goals simp [hexponent, hfraction, n.whole_ne_nil]
  · have htaken := takeWhile_digits n.fraction_digits hx.noDigitFirst
    have hleft := dropWhile_digits n.fraction_digits hx.noDigitFirst
    simp [hfraction, htaken, hleft, hexponent]

variable {n} in
/-- A numeral with a sign is read as the float of its decimal, unless there is none. -/
theorem WrittenAs.readFloat {cs : List Char} (h : n.WrittenAs cs)
    (f : BinaryFormat) (negative : Bool) :
    Decimal.readFloat f (sign negative ++ cs) =
      ((f.ofDecimal? (n.counted.taken f).digits (n.counted.taken f).exponent).map fun m =>
        if negative then f.signBit + m else m).elim (.error .outOfRange) .ok := by
  have hread := h.readDecimal?
  obtain ⟨c, rest, rfl, hminus, hplus⟩ := h.exists_unsigned
  rcases hm : f.ofDecimal? (n.counted.taken f).digits (n.counted.taken f).exponent with _ | m
  · cases negative <;> simp [sign, Decimal.readFloat, hminus, hplus, hread, hm]
  · cases negative <;> simp [sign, Decimal.readFloat, hminus, hplus, hread, hm]

section Unique

variable {n} {n' : Numeral} {exponent exponent' cs : List Char}

theorem exponent_unique (hx : ExponentText n.exponent cs) (hx' : ExponentText n'.exponent cs) :
    n.exponent = n'.exponent := by
  have hdigits := n.exponent_digits
  have hdigits' := n'.exponent_digits
  generalize n.exponent = x at hx hdigits
  generalize n'.exponent = x' at hx' hdigits'
  -- digits do not start with a sign, so an exponent without a sign is no other with one
  have hsign (negative : Bool) (c : Char) (ds : List Char) (hc : c.isDigit = false)
      (h : ∀ y ∈ some (negative, c :: ds), y.2 ≠ [] ∧ ∀ d ∈ y.2, d.isDigit) : False := by
    have hdigit := (h _ rfl).2 c List.mem_cons_self
    rw [hc] at hdigit
    cases hdigit
  cases hx with
  | absent =>
    cases hx' with
    | absent => rfl
  | minus =>
    cases hx' with
    | minus => rfl
    | plain => exact (hsign _ _ _ rfl hdigits').elim
  | plus =>
    cases hx' with
    | plus => rfl
    | plain => exact (hsign _ _ _ rfl hdigits').elim
  | plain =>
    cases hx' with
    | minus | plus => exact (hsign _ _ _ rfl hdigits).elim
    | plain => rfl

theorem fraction_unique (hx : ExponentText n.exponent exponent)
    (hx' : ExponentText n'.exponent exponent')
    (h : n.fractionChars ++ exponent = n'.fractionChars ++ exponent') :
    n.fraction = n'.fraction ∧ exponent = exponent' := by
  have hpoint {x : Option (Bool × List Char)} {cs ds : List Char} (hx : ExponentText x cs)
      (h : cs = '.' :: ds) : False := by
    subst h
    obtain h | ⟨mark, rest, h, rfl | rfl⟩ := hx.cases_first
    all_goals cases h
  unfold fractionChars at h
  by_cases hf : n.fraction = []
  · by_cases hf' : n'.fraction = []
    · rw [if_pos hf, if_pos hf'] at h
      exact ⟨hf.trans hf'.symm, h⟩
    · rw [if_pos hf, if_neg hf'] at h
      exact (hpoint hx h).elim
  · by_cases hf' : n'.fraction = []
    · rw [if_neg hf, if_pos hf'] at h
      exact (hpoint hx' h.symm).elim
    · rw [if_neg hf, if_neg hf', List.cons_append, List.cons_append, List.cons.injEq] at h
      have hdigits := takeWhile_digits n.fraction_digits hx.noDigitFirst
      have hrest := dropWhile_digits n.fraction_digits hx.noDigitFirst
      rw [h.2] at hdigits hrest
      rw [takeWhile_digits n'.fraction_digits hx'.noDigitFirst] at hdigits
      rw [dropWhile_digits n'.fraction_digits hx'.noDigitFirst] at hrest
      exact ⟨hdigits.symm, hrest.symm⟩

/-- A text is that of one numeral at most. -/
theorem WrittenAs.unique (h : n.WrittenAs cs) (h' : n'.WrittenAs cs) : n = n' := by
  obtain ⟨exponent, hx, hcs⟩ := h
  obtain ⟨exponent', hx', hcs'⟩ := h'
  have hwhole := takeWhile_digits n.whole_digits (n.noDigitFirst_after_whole hx)
  have hrest := dropWhile_digits n.whole_digits (n.noDigitFirst_after_whole hx)
  rw [← hcs, hcs', takeWhile_digits n'.whole_digits (n'.noDigitFirst_after_whole hx')] at hwhole
  rw [← hcs, hcs', dropWhile_digits n'.whole_digits (n'.noDigitFirst_after_whole hx')] at hrest
  obtain ⟨hfraction, rfl⟩ := fraction_unique hx hx' hrest.symm
  have hexponent := exponent_unique hx hx'
  cases n
  cases n'
  simp_all

end Unique

end Numeral

section Integers

/-- A whole number is the numeral of its digits. -/
def Numeral.ofNat (k : Nat) : Numeral where
  whole := digitChars k
  fraction := []
  exponent := none
  whole_digits _ := isDigit_of_mem_digitChars
  whole_ne_nil := digitChars_ne_nil k
  leading := by
    by_cases hk : k = 0
    · exact .inl (hk ▸ rfl)
    · exact .inr (head?_digitChars hk)
  fraction_digits := by simp
  exponent_digits := by simp

theorem Numeral.chars_ofNat (k : Nat) : (ofNat k).chars = digitChars k := by
  simp [chars, fractionChars, exponentChars, ofNat]

theorem toList_toString_int (i : Int) :
    (toString i).toList = Numeral.sign (decide (i < 0)) ++ (Numeral.ofNat i.natAbs).chars := by
  rw [Numeral.chars_ofNat, Int.toString_eq_repr, Int.repr_eq_if, digitChars]
  by_cases hneg : i < 0
  · have habs : (-i).toNat = i.natAbs := by omega
    simp [Numeral.sign, hneg, Int.not_le.mpr hneg, habs]
  · have habs : i.toNat = i.natAbs := by omega
    simp [Numeral.sign, hneg, Int.not_lt.mp hneg, habs]

theorem digitValue?_of_isDigit {c : Char} (hc : c.isDigit) :
    digitValue? c = some (c.toNat - '0'.toNat) := if_pos hc

theorem isDigit_of_digitValue? {c : Char} {d : Nat} (h : digitValue? c = some d) (hd : d < 10) :
    c.isDigit := by
  unfold digitValue? at h
  split at h
  · assumption
  · split at h
    · cases h
      omega
    · split at h
      · cases h
        omega
      · cases h

/-- Digits are read as their number if it lies below the limit, and nothing else is read. -/
theorem readDigits_ok_iff {limit value k : Nat} {cs : List Char} (hvalue : value < limit) :
    readDigits 10 limit value cs = .ok k ↔
      (∀ c ∈ cs, c.isDigit) ∧ digitsFrom value cs = k ∧ k < limit := by
  induction cs generalizing value with
  | nil =>
    simp only [readDigits, Except.ok.injEq, digitsFrom_nil]
    constructor
    · rintro rfl
      exact ⟨by simp, rfl, hvalue⟩
    · exact fun h => h.2.1
  | cons c cs ih =>
    constructor
    · intro h
      unfold readDigits at h
      split at h
      · cases h
      · rename_i d hd
        split at h
        · cases h
        · rename_i hbase
          split at h
          · cases h
          · rename_i hlimit
            have hc := isDigit_of_digitValue? hd (Nat.not_le.mp hbase)
            rw [digitValue?_of_isDigit hc, Option.some.injEq] at hd
            obtain ⟨hcs, hk, hlt⟩ := (ih (Nat.not_le.mp hlimit)).mp h
            exact ⟨List.forall_mem_cons.mpr ⟨hc, hcs⟩, by rw [digitsFrom_cons, hd, hk], hlt⟩
    · rintro ⟨hcs, hk, hlt⟩
      obtain ⟨hc, hcs⟩ := List.forall_mem_cons.mp hcs
      have hdigit : c.toNat - '0'.toNat < 10 := by
        have hrange := Char.isDigit_iff_toNat.mp hc
        have hzero : '0'.toNat = 48 := rfl
        have hnine : '9'.toNat = 57 := rfl
        omega
      have hnext : value * 10 + (c.toNat - '0'.toNat) < limit := by
        have hle := le_digitsFrom (value * 10 + (c.toNat - '0'.toNat)) cs
        rw [digitsFrom_cons] at hk
        omega
      rw [readDigits, digitValue?_of_isDigit hc]
      simp only [Nat.not_le.mpr hdigit, Nat.not_le.mpr hnext, if_false]
      exact (ih hnext).mpr ⟨hcs, hk, hlt⟩

namespace Numeral

variable {n : Numeral} {cs : List Char} {bits k : Nat} {i : Int}

/-- The numeral has no fraction and no exponent. -/
def IsWhole (n : Numeral) : Prop := n.fraction = [] ∧ n.exponent = none

/-- The number that a numeral without fraction and exponent stands for, after a minus if it is
`negative`. -/
def wholeValue (n : Numeral) (negative : Bool) : Int :=
  if negative then -(digitsValue n.whole : Int) else digitsValue n.whole

theorem WrittenAs.eq_whole (h : n.WrittenAs cs) (hn : n.IsWhole) : cs = n.whole := by
  obtain ⟨exponent, hx, rfl⟩ := h
  rw [hn.2] at hx
  cases hx
  rw [fractionChars, if_pos hn.1, List.append_nil, List.append_nil]

theorem WrittenAs.isWhole (h : n.WrittenAs cs) (hcs : ∀ c ∈ cs, c.isDigit) : n.IsWhole := by
  obtain ⟨exponent, hx, rfl⟩ := h
  simp only [List.forall_mem_append] at hcs
  obtain ⟨-, hfraction, hexponent⟩ := hcs
  constructor
  · by_contra hne
    rw [fractionChars, if_neg hne] at hfraction
    cases hfraction '.' List.mem_cons_self
  · generalize n.exponent = x at hx
    cases hx with
    | absent => rfl
    | minus hmark | plus hmark | plain hmark =>
      have hmarked := hexponent _ List.mem_cons_self
      rcases hmark with rfl | rfl
      · cases hmarked
      · cases hmarked

theorem WrittenAs.readUnsigned_iff (h : n.WrittenAs cs) (negative : Bool) :
    readUnsigned bits (sign negative ++ cs) = .ok k ↔
      negative = false ∧ n.IsWhole ∧ digitsValue n.whole = k ∧ k < Nat.pow 2 bits := by
  obtain ⟨c, rest, hcs, -⟩ := h.exists_cons
  have hne : ¬(sign negative ++ cs).isEmpty = true := by simp [hcs]
  have hpos : 0 < Nat.pow 2 bits := Nat.pow_pos two_pos
  rw [readUnsigned, if_neg hne, readDigits_ok_iff hpos]
  constructor
  · rintro ⟨hdigits, hk, hlt⟩
    cases negative with
    | true => cases hdigits '-' List.mem_cons_self
    | false =>
      have hn := h.isWhole hdigits
      rw [h.eq_whole hn] at hk
      exact ⟨rfl, hn, hk, hlt⟩
  · rintro ⟨rfl, hn, hk, hlt⟩
    rw [h.eq_whole hn]
    exact ⟨n.whole_digits, hk, hlt⟩

theorem withSign_ok_iff (negative : Bool) :
    withSign bits negative k = .ok i ↔
      (if negative then -(k : Int) else k) = i ∧
        -(Nat.pow 2 (bits - 1) : Int) ≤ i ∧ i < Nat.pow 2 (bits - 1) := by
  have hpos : 0 < Nat.pow 2 (bits - 1) := Nat.pow_pos two_pos
  unfold withSign
  cases negative with
  | true =>
    rw [if_pos rfl, if_pos rfl]
    split
    · rw [Except.ok.injEq]
      omega
    · simp only [reduceCtorEq, false_iff]
      omega
  | false =>
    rw [if_neg Bool.false_ne_true, if_neg Bool.false_ne_true]
    split
    · rw [Except.ok.injEq]
      omega
    · simp only [reduceCtorEq, false_iff]
      omega

theorem WrittenAs.readSigned_iff (h : n.WrittenAs cs) (hbits : 0 < bits) (negative : Bool) :
    readSigned bits (sign negative ++ cs) = .ok i ↔
      n.IsWhole ∧ n.wholeValue negative = i ∧
        -(Nat.pow 2 (bits - 1) : Int) ≤ i ∧ i < Nat.pow 2 (bits - 1) := by
  have hsplit : readSigned bits (sign negative ++ cs) =
      (readUnsigned bits cs).bind (withSign bits negative) := by
    obtain ⟨c, rest, rfl, hminus, hplus⟩ := h.exists_unsigned
    cases negative <;> simp [readSigned, sign, hminus, hplus]
  have hread (k : Nat) : readUnsigned bits cs = .ok k ↔
      n.IsWhole ∧ digitsValue n.whole = k ∧ k < Nat.pow 2 bits := by
    have hiff : readUnsigned bits (sign false ++ cs) = .ok k ↔ _ := h.readUnsigned_iff false
    simpa [sign] using hiff
  have hmono : 2 * Nat.pow 2 (bits - 1) = Nat.pow 2 bits := by
    rw [Nat.pow_eq, Nat.pow_eq, ← Nat.pow_succ', Nat.succ_eq_add_one, Nat.sub_add_cancel hbits]
  rw [hsplit]
  constructor
  · intro hi
    obtain ⟨k, hk, hi⟩ := exists_of_bind_ok hi
    obtain ⟨hn, rfl, -⟩ := (hread k).mp hk
    exact ⟨hn, (withSign_ok_iff negative).mp hi⟩
  · rintro ⟨hn, hi, hlow, hhigh⟩
    have hlt : digitsValue n.whole < Nat.pow 2 bits := by
      unfold wholeValue at hi
      split at hi <;> omega
    rw [(hread _).mpr ⟨hn, rfl, hlt⟩]
    exact (withSign_ok_iff negative).mpr ⟨hi, hlow, hhigh⟩

theorem isWhole_ofNat (k : Nat) : (ofNat k).IsWhole := ⟨rfl, rfl⟩

end Numeral

theorem readUnsigned_digitChars {bits k : Nat} (h : k < Nat.pow 2 bits) :
    readUnsigned bits (digitChars k) = .ok k := by
  rw [← Numeral.chars_ofNat]
  exact ((Numeral.ofNat k).writtenAs_chars.readUnsigned_iff false).mpr
    ⟨rfl, Numeral.isWhole_ofNat k, digitsValue_digitChars k, h⟩

theorem readSigned_toString {bits : Nat} {i : Int} (hbits : 0 < bits)
    (hlow : -(Nat.pow 2 (bits - 1) : Int) ≤ i) (hhigh : i < Nat.pow 2 (bits - 1)) :
    readSigned bits (toString i).toList = .ok i := by
  have hvalue : (Numeral.ofNat i.natAbs).wholeValue (decide (i < 0)) = i := by
    have hdigits : digitsValue (Numeral.ofNat i.natAbs).whole = i.natAbs :=
      digitsValue_digitChars i.natAbs
    rw [Numeral.wholeValue, hdigits]
    split
    · rename_i hneg
      have := of_decide_eq_true hneg
      omega
    · rename_i hneg
      have := of_decide_eq_false (Bool.eq_false_iff.mpr hneg)
      omega
  rw [toList_toString_int]
  exact ((Numeral.ofNat i.natAbs).writtenAs_chars.readSigned_iff hbits _).mpr
    ⟨Numeral.isWhole_ofNat _, hvalue, hlow, hhigh⟩

end Integers

end Savefile.Decimal
