import Mathlib.Data.List.TakeWhile
import Savefile.Proofs.JsonText

/-!
# The numbers of a JSON value

Reading a text yields numbers of one form only: an optional minus and a numeral. Which tokens the
text has and how arrays and objects are put together from them does not change the numbers.
-/
namespace Savefile.Json

open Decimal (Numeral)

/-- The text is a numeral, after a minus if it is `negative`. -/
def Spells (text : String) (negative : Bool) (n : Numeral) : Prop :=
  ∃ cs, n.WrittenAs cs ∧ text.toList = Numeral.sign negative ++ cs

/-- The text is a numeral, after a minus if there is one. -/
def IsSpelled (text : String) : Prop := ∃ negative n, Spells text negative n

/-- A text is that of one number at most. -/
theorem Spells.unique {text : String} {negative negative' : Bool} {n n' : Numeral}
    (h : Spells text negative n) (h' : Spells text negative' n') :
    negative = negative' ∧ n = n' := by
  obtain ⟨cs, hcs, htext⟩ := h
  obtain ⟨cs', hcs', htext'⟩ := h'
  rw [htext] at htext'
  have hsign {ds ds' : List Char} (hds : n.WrittenAs ds ∨ n'.WrittenAs ds) (h : ds = '-' :: ds') :
      False := by
    obtain ⟨c, rest, hcons, hminus, -⟩ : ∃ c rest, ds = c :: rest ∧ c ≠ '-' ∧ c ≠ '+' :=
      hds.elim (·.exists_unsigned) (·.exists_unsigned)
    rw [h] at hcons
    cases hcons
    exact hminus rfl
  cases negative with
  | false =>
    cases negative' with
    | false =>
      obtain rfl : cs = cs' := htext'
      exact ⟨rfl, hcs.unique hcs'⟩
    | true => exact (hsign (.inl hcs) htext').elim
  | true =>
    cases negative' with
    | false => exact (hsign (.inr hcs') htext'.symm).elim
    | true =>
      obtain rfl : cs = cs' := (List.cons.inj htext').2
      exact ⟨rfl, hcs.unique hcs'⟩

section Scanning

variable {cs ds rest part : List Char}

theorem digitRun_fst (cs : List Char) : (digitRun cs).1 = cs.takeWhile Char.isDigit := by
  rw [digitRun, List.span_eq_takeWhile_dropWhile]

theorem isDigit_of_mem_digitRun {c : Char} (hc : c ∈ (digitRun cs).1) : c.isDigit := by
  rw [digitRun_fst] at hc
  exact List.mem_takeWhile_imp hc

theorem wholePart?_sound (h : wholePart? cs = some (ds, rest)) :
    ds ≠ [] ∧ (∀ c ∈ ds, c.isDigit) ∧ (ds = ['0'] ∨ ds.head? ≠ some '0') := by
  unfold wholePart? at h
  split at h
  · cases h
    exact ⟨by simp, by simp, .inl rfl⟩
  · rename_i hzero
    dsimp only at h
    split at h
    · cases h
    · rename_i hne
      cases h
      refine ⟨by simpa using hne, fun c => isDigit_of_mem_digitRun, .inr ?_⟩
      rw [digitRun_fst]
      cases cs with
      | nil => simp
      | cons c cs =>
        have hc : c ≠ '0' := by
          rintro rfl
          exact hzero cs rfl
        rw [List.takeWhile_cons]
        split
        · simpa using hc
        · simp

theorem fractionPart?_sound (h : fractionPart? cs = some (part, rest)) :
    ∃ ds, (∀ c ∈ ds, c.isDigit) ∧ part = if ds = [] then [] else '.' :: ds := by
  unfold fractionPart? at h
  split at h
  · rename_i more
    dsimp only at h
    split at h
    · cases h
    · rename_i hne
      cases h
      refine ⟨(digitRun more).1, fun c => isDigit_of_mem_digitRun, ?_⟩
      rw [if_neg (by simpa using hne)]
  · cases h
    exact ⟨[], by simp, rfl⟩

theorem exponentPart?_sound (h : exponentPart? cs = some (part, rest)) :
    ∃ x, Numeral.ExponentText x part ∧ ∀ y ∈ x, y.2 ≠ [] ∧ ∀ c ∈ y.2, c.isDigit := by
  unfold exponentPart? at h
  split at h
  · cases h
    exact ⟨none, .absent, by simp⟩
  · rename_i mark cs
    split at h
    · rename_i hmark
      have hmark : mark = 'e' ∨ mark = 'E' := by simpa using hmark
      -- whichever sign there is, the digits after it are not empty
      have hpart (sign body : List Char) (h : (if (digitRun body).1.isEmpty then none else
          some (mark :: sign ++ (digitRun body).1, (digitRun body).2)) = some (part, rest)) :
          part = mark :: sign ++ (digitRun body).1 ∧ ∀ negative : Bool,
            ∀ y ∈ some (negative, (digitRun body).1), y.2 ≠ [] ∧ ∀ c ∈ y.2, c.isDigit := by
        split at h
        · cases h
        · rename_i hne
          cases h
          refine ⟨rfl, ?_⟩
          rintro negative y ⟨⟩
          exact ⟨by simpa using hne, fun c => isDigit_of_mem_digitRun⟩
      dsimp only at h
      split at h
      · obtain ⟨rfl, hdigits⟩ := hpart _ _ h
        exact ⟨_, .plus hmark, hdigits false⟩
      · obtain ⟨rfl, hdigits⟩ := hpart _ _ h
        exact ⟨_, .minus hmark, hdigits true⟩
      · obtain ⟨rfl, hdigits⟩ := hpart _ _ h
        exact ⟨_, .plain hmark, hdigits false⟩
    · cases h
      exact ⟨none, .absent, by simp⟩

theorem isSpelled_of_parts (negative : Bool) {body rest₁ rest₂ rest₃ whole fraction exponent :
    List Char} (hwhole : wholePart? body = some (whole, rest₁))
    (hfraction : fractionPart? rest₁ = some (fraction, rest₂))
    (hexponent : exponentPart? rest₂ = some (exponent, rest₃)) :
    IsSpelled (String.ofList (Numeral.sign negative ++ whole ++ fraction ++ exponent)) := by
  obtain ⟨hne, hdigits, hleading⟩ := wholePart?_sound hwhole
  obtain ⟨ds, hds, rfl⟩ := fractionPart?_sound hfraction
  obtain ⟨x, htext, hx⟩ := exponentPart?_sound hexponent
  refine ⟨negative, ⟨whole, ds, x, hdigits, hne, hleading, hds, hx⟩, _, ⟨exponent, htext, rfl⟩, ?_⟩
  simp [Numeral.fractionChars]

/-- A number that was scanned is a numeral after an optional minus. -/
theorem readNumber?_sound {text : String} (h : readNumber? cs = some (text, rest)) :
    IsSpelled text := by
  unfold readNumber? at h
  dsimp only at h
  simp only [Option.bind_eq_bind, Option.bind_eq_some_iff, Prod.exists, Option.some.injEq,
    Prod.mk.injEq] at h
  obtain ⟨whole, rest₁, hwhole, fraction, rest₂, hfraction, exponent, rest₃, hexponent, rfl, -⟩ := h
  split
  · exact isSpelled_of_parts true hwhole hfraction hexponent
  · exact isSpelled_of_parts false hwhole hfraction hexponent

end Scanning

section Numbers

mutual

/-- The texts of the numbers in a value. -/
def numbers : Json → List String
  | .number text => [text]
  | .array items => itemNumbers items
  | .object members => memberNumbers members
  | _ => []

/-- The texts of the numbers in items. -/
def itemNumbers : List Json → List String
  | [] => []
  | j :: js => j.numbers ++ itemNumbers js

/-- The texts of the numbers in the values of members. -/
def memberNumbers : List (String × Json) → List String
  | [] => []
  | (_, j) :: rest => j.numbers ++ memberNumbers rest

end

variable {text key : String} {j : Json} {items : List Json} {members : List (String × Json)}

theorem mem_itemNumbers : text ∈ itemNumbers items ↔ ∃ j ∈ items, text ∈ j.numbers := by
  induction items with
  | nil => simp [itemNumbers]
  | cons j js ih => simp [itemNumbers, ih]

theorem mem_memberNumbers : text ∈ memberNumbers members ↔ ∃ m ∈ members, text ∈ m.2.numbers := by
  induction members with
  | nil => simp [memberNumbers]
  | cons m ms ih => simp [memberNumbers, ih]

theorem mem_insertMember {m : String × Json} (h : m ∈ insertMember key j members) :
    m ∈ members ∨ m.2 = j := by
  induction members with
  | nil =>
    rw [insertMember, List.mem_singleton] at h
    exact .inr (h ▸ rfl)
  | cons m' ms ih =>
    unfold insertMember at h
    split at h
    · rcases List.mem_cons.mp h with rfl | h
      · exact .inr rfl
      · exact .inl (List.mem_cons_of_mem _ h)
    · rcases List.mem_cons.mp h with rfl | h
      · exact .inl List.mem_cons_self
      · exact (ih h).imp_left (List.mem_cons_of_mem _)

/-- The texts of the numbers in a level. -/
def Level.numbers : Level → List String
  | .array items => itemNumbers items
  | .object members _ => memberNumbers members

/-- The texts of the numbers in a token. -/
def Token.numbers : Token → List String
  | .leaf j => j.numbers
  | _ => []

theorem Level.numbers_add {level : Level} (h : text ∈ (level.add j).numbers) :
    text ∈ level.numbers ∨ text ∈ j.numbers := by
  cases level with
  | array items => exact (List.mem_append.mp h).symm
  | object members key =>
    obtain ⟨m, hm, htext⟩ := mem_memberNumbers.mp h
    rcases mem_insertMember hm with hm | rfl
    · exact .inl (mem_memberNumbers.mpr ⟨m, hm, htext⟩)
    · exact .inr htext

theorem Level.numbers_close {level : Level} (h : text ∈ level.close.numbers) :
    text ∈ level.numbers := by
  cases level with
  | array items =>
    obtain ⟨j, hj, htext⟩ := mem_itemNumbers.mp h
    exact mem_itemNumbers.mpr ⟨j, List.mem_reverse.mp hj, htext⟩
  | object members key => exact h

/-- Something holds of all numbers of the open levels and the tokens to come. -/
structure Remaining (P : String → Prop) (levels : List Level) (ts : List Token) : Prop where
  levels : ∀ level ∈ levels, ∀ text ∈ level.numbers, P text
  tokens : ∀ t ∈ ts, ∀ text ∈ t.numbers, P text

namespace Remaining

variable {P : String → Prop} {level next : Level} {levels : List Level} {t : Token}
  {ts : List Token}

theorem replace (h : Remaining P levels (t :: ts)) {levels' : List Level}
    (h' : ∀ level ∈ levels', ∀ text ∈ level.numbers, P text) : Remaining P levels' ts :=
  ⟨h', fun t ht => h.tokens t (List.mem_cons_of_mem _ ht)⟩

theorem skip (h : Remaining P levels (t :: ts)) : Remaining P levels ts := h.replace h.levels

theorem openLevel (h : Remaining P levels (t :: ts)) (hlevel : level.numbers = []) :
    Remaining P (level :: levels) ts :=
  h.replace (List.forall_mem_cons.mpr ⟨by simp [hlevel], h.levels⟩)

theorem add (h : Remaining P (level :: levels) (t :: ts)) (hj : ∀ text ∈ j.numbers, P text) :
    Remaining P (level.add j :: levels) ts := by
  obtain ⟨hlevel, hlevels⟩ := List.forall_mem_cons.mp h.levels
  refine h.replace (List.forall_mem_cons.mpr ⟨fun text htext => ?_, hlevels⟩)
  exact (Level.numbers_add htext).elim (hlevel text) (hj text)

theorem leaf (h : Remaining P levels (.leaf j :: ts)) : ∀ text ∈ j.numbers, P text :=
  h.tokens _ List.mem_cons_self

theorem close (h : Remaining P (level :: levels) (t :: ts)) :
    ∀ text ∈ level.close.numbers, P text :=
  fun text htext => h.levels level List.mem_cons_self text (Level.numbers_close htext)

theorem closeInto (h : Remaining P (level :: next :: levels) (t :: ts)) :
    Remaining P (next.add level.close :: levels) ts := by
  have hnext : Remaining P (next :: levels) (t :: ts) :=
    ⟨fun l hl => h.levels l (List.mem_cons_of_mem _ hl), h.tokens⟩
  exact hnext.add h.close

theorem rename {k : String} (h : Remaining P (.object members key :: levels) (t :: ts)) :
    Remaining P (.object members k :: levels) ts := by
  obtain ⟨hlevel, hlevels⟩ := List.forall_mem_cons.mp h.levels
  exact h.replace (List.forall_mem_cons.mpr ⟨hlevel, hlevels⟩)

end Remaining

/-- What holds of all numbers of the levels and the tokens holds of those of the value that is
read. -/
theorem numbers_of_readFrom {P : String → Prop} {expected : Expected} {levels : List Level}
    {ts : List Token} (hremaining : Remaining P levels ts)
    (h : readFrom expected levels ts = some j) : ∀ text ∈ j.numbers, P text := by
  fun_induction readFrom expected levels ts with
  | case2 ts value | case4 ts value =>
    cases h
    exact hremaining.leaf
  | case3 ts value level outer ih | case5 ts value level outer ih =>
    exact ih (hremaining.add hremaining.leaf) h
  | case6 ts levels _ ih | case8 ts levels _ ih => exact ih (hremaining.openLevel rfl) h
  | case10 ts levels _ ih | case12 ts levels _ ih => exact ih (hremaining.openLevel rfl) h
  | case14 ts k members key outer ih | case15 ts k members key outer ih =>
    exact ih hremaining.rename h
  | case16 ts levels ih => exact ih hremaining.skip h
  | case17 ts items outer ih => exact ih hremaining.skip h
  | case18 ts members key outer ih => exact ih hremaining.skip h
  | case19 | case22 | case25 =>
    cases h
    exact hremaining.close
  | case20 ts t level _ _ _ _ next outer ih => exact ih hremaining.closeInto h
  | case23 ts t level _ _ next outer ih => exact ih hremaining.closeInto h
  | case26 ts t level _ _ _ next outer ih => exact ih hremaining.closeInto h
  | _ => cases h

theorem numbers_of_mark? {c : Char} {t : Token} (h : mark? c = some t) : t.numbers = [] := by
  unfold mark? at h
  split at h
  case h_7 => cases h
  all_goals
    cases h
    rfl

theorem numbers_of_word? {cs rest : List Char} (h : word? cs = some (j, rest)) :
    j.numbers = [] := by
  unfold word? at h
  split_ifs at h
  all_goals
    cases h
    simp [numbers]

theorem numbers_of_nextToken? {c : Char} {cs rest : List Char} {t : Token}
    (h : nextToken? c cs = some (t, rest)) : ∀ text ∈ t.numbers, IsSpelled text := by
  unfold nextToken? at h
  split at h
  · rename_i mark hmark
    cases h
    simp [numbers_of_mark? hmark]
  · split_ifs at h
    · obtain ⟨x, -, hx⟩ := Option.map_eq_some_iff.mp h
      cases hx
      simp [Token.numbers, numbers]
    · obtain ⟨x, hread, hx⟩ := Option.map_eq_some_iff.mp h
      cases hx
      simpa [Token.numbers, numbers] using readNumber?_sound hread
    · obtain ⟨x, hword, hx⟩ := Option.map_eq_some_iff.mp h
      cases hx
      simp [Token.numbers, numbers_of_word? hword]

theorem numbers_of_tokensFrom (fuel : Nat) (cs : List Char) :
    ∀ t ∈ tokensFrom fuel cs, ∀ text ∈ t.numbers, IsSpelled text := by
  induction fuel generalizing cs with
  | zero => simp [tokensFrom]
  | succ fuel ih =>
    cases cs with
    | nil => simp [tokensFrom]
    | cons c cs =>
      unfold tokensFrom
      split
      · exact ih cs
      · split
        · rename_i t rest hnext
          exact List.forall_mem_cons.mpr ⟨numbers_of_nextToken? hnext, ih rest⟩
        · simp [Token.numbers]

/-- Every number of a value that was read from a text is a numeral after an optional minus. -/
theorem numbers_of_parse? {cs : List Char} (h : parse? cs = some j) :
    ∀ text ∈ j.numbers, IsSpelled text :=
  numbers_of_readFrom ⟨by simp, numbers_of_tokensFrom _ _⟩ h

end Numbers

end Savefile.Json
