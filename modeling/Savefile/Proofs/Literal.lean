import Savefile.Proofs.Numeral
import Savefile.Proofs.Result
import Savefile.Schema.Compact

/-!
# Literal counts

The text of a number below the limit of counts is an expression: it is one token, the token is a
term of its own, and in every scope the value of the term is the number.
-/
namespace Savefile

namespace Decimal

theorem ne_of_isDigit {c d : Char} (hc : c.isDigit) (hd : d.isDigit = false) : c ≠ d := by
  rintro rfl
  rw [hc] at hd
  cases hd

/-- Digits have no sign before them. -/
theorem readSigned_eq_of_digits {bits : Nat} {cs : List Char} (hcs : ∀ c ∈ cs, c.isDigit) :
    readSigned bits cs = (readUnsigned bits cs).bind (withSign bits false) := by
  cases cs with
  | nil => rfl
  | cons c cs =>
    have hc := hcs c List.mem_cons_self
    have hminus : c ≠ '-' := ne_of_isDigit hc rfl
    have hplus : c ≠ '+' := ne_of_isDigit hc rfl
    simp [readSigned, hminus, hplus]

theorem readSigned_digits {bits : Nat} {cs : List Char} {n : Int} (hcs : ∀ c ∈ cs, c.isDigit)
    (h : readSigned bits cs = .ok n) :
    n = digitsValue cs ∧ digitsValue cs < Nat.pow 2 (bits - 1) := by
  rw [readSigned_eq_of_digits hcs] at h
  obtain ⟨value, hvalue, h⟩ := exists_of_bind_ok h
  have hpos : 0 < Nat.pow 2 bits := Nat.pow_pos (by decide)
  have hdigits : value = digitsValue cs := by
    unfold readUnsigned at hvalue
    split at hvalue
    · cases hvalue
    · exact ((readDigits_ok_iff hpos).mp hvalue).2.1.symm
  rw [withSign, if_neg Bool.false_ne_true, hdigits] at h
  split at h
  · rename_i hlimit
    cases h
    exact ⟨rfl, hlimit⟩
  · cases h

theorem readSigned_of_digits {bits : Nat} {cs : List Char} (hcs : ∀ c ∈ cs, c.isDigit)
    (hne : cs ≠ []) (h : digitsValue cs < Nat.pow 2 (bits - 1)) :
    readSigned bits cs = .ok (digitsValue cs) := by
  have hlimit : digitsValue cs < Nat.pow 2 bits :=
    h.trans_le (Nat.pow_le_pow_right (by decide) (Nat.sub_le _ _))
  have hread : readUnsigned bits cs = .ok (digitsValue cs) := by
    rw [readUnsigned, if_neg (by simpa using hne)]
    exact (readDigits_ok_iff (Nat.pow_pos (by decide))).mpr ⟨hcs, rfl, hlimit⟩
  rw [readSigned_eq_of_digits hcs, hread]
  simp only [Except.bind, withSign, Bool.false_eq_true, if_false]
  rw [if_pos h]

end Decimal

namespace Expr

open Decimal (digitsFrom digitsValue digitChars)

theorem digitsIn_eq {ds : List Char} (hds : ∀ c ∈ ds, c.isDigit) :
    digitsIn 10 ds = digitsValue ds := by
  have hfold : ∀ value, ds.foldl (fun n c => n * 10 + (Decimal.hexValue? c).getD 0) value =
      digitsFrom value ds := by
    induction ds with
    | nil => intro value; rfl
    | cons c ds ih =>
      intro value
      have hc := Decimal.digitValue?_of_isDigit (hds c List.mem_cons_self)
      rw [List.foldl_cons, Decimal.hexValue?, hc, Option.getD_some, Decimal.digitsFrom_cons]
      exact ih (fun d hd => hds d (List.mem_cons_of_mem c hd)) _
  exact hfold 0

section Tokens

variable {c : Char} {ds : List Char}

theorem quotedToken?_digits (hc : c.isDigit) : quotedToken? (c :: ds) = none := by
  have hne : ∀ d : Char, d.isDigit = false → c ≠ d := fun _ => Decimal.ne_of_isDigit hc
  simp [quotedToken?, quotedPieces?, hne 'b' rfl, hne 'B' rfl, hne 'r' rfl, hne 'R' rfl,
    hne '"' rfl, hne '\'' rfl]

theorem numberToken_digits (hds : ∀ d ∈ c :: ds, d.isDigit) :
    numberToken (c :: ds) = (.int 10 (c :: ds), []) := by
  have hnil : Decimal.NoDigitFirst [] := Decimal.noDigitFirst_nil
  have htake := Decimal.takeWhile_digits hds hnil
  have hdrop := Decimal.dropWhile_digits hds hnil
  rw [List.append_nil] at htake hdrop
  unfold numberToken
  split
  · rename_i rest hx
    have hletter := hds 'x' (by simp [hx])
    cases hletter
  · simp [htake, hdrop, exponentPart, wholeToken]

theorem nextToken?_digits (hds : ∀ d ∈ c :: ds, d.isDigit) :
    nextToken? (c :: ds) = some (.int 10 (c :: ds), []) := by
  have hc := hds c List.mem_cons_self
  have hstart : isIdentStart c = false := by
    have hletter : c.isAlpha = false := by
      have halpha : c.isAlpha = (decide (65 ≤ c.val ∧ c.val ≤ 90) ||
        (decide (97 ≤ c.val) && decide (c.val ≤ 122))) := rfl
      simp [Char.isDigit, UInt32.le_iff_toNat_le] at hc
      rw [halpha, Bool.eq_false_iff]
      simp [UInt32.le_iff_toNat_le]
      omega
    have hunderscore : c ≠ '_' := Decimal.ne_of_isDigit hc rfl
    simp [isIdentStart, hletter, hunderscore]
  rw [nextToken?, quotedToken?_digits hc]
  simp [hstart, hc, numberToken_digits hds]

theorem tokens?_digits (hds : ∀ d ∈ c :: ds, d.isDigit) :
    tokens? (String.ofList (c :: ds)) = some [.int 10 (c :: ds)] := by
  have hc := hds c List.mem_cons_self
  have hne : ∀ d : Char, d.isDigit = false → c ≠ d := fun _ => Decimal.ne_of_isDigit hc
  have hblank : isBlank c = false := by
    simp [isBlank, hne ' ' rfl, hne '\t' rfl, hne '\r' rfl, hne '\n' rfl, hne '\x0c' rfl]
  rw [tokens?, String.toList_ofList, List.length_cons, tokensFrom?]
  simp [hblank, hne '/' rfl, nextToken?_digits hds, tokensFrom?]

end Tokens

/-- A token that is a number is a term of its own. -/
theorem expression_int (depth : Nat) (base : Nat) (ds : List Char) :
    expression (depth + 1) ⟨nestingLimit, nestingLimit, nestingLimit⟩ [.int base ds] =
      (intLiteral? false base ds).map fun t => (t, []) := by
  cases hint : intLiteral? false base ds with
  | none =>
    simp [expression, disjunction, conjunction, relation, compared, sum, arithLevel, unary, member,
      primary, countMarks, nestingLimit, hint]
  | some t =>
    simp [expression, disjunction, conjunction, relation, compared, sum, arithLevel, unary, member,
      primary, memberTail, leftChain, separated, countMarks, nestingLimit, hint]

theorem parse?_toString {n : Nat} (hn : n < signedLimit) :
    Term.parse? (toString n) = some (.literal (.int (Int64.ofNat n))) := by
  obtain ⟨c, ds, hdigits⟩ := List.exists_cons_of_ne_nil (Decimal.digitChars_ne_nil n)
  have hds : ∀ d ∈ c :: ds, d.isDigit := by
    rw [← hdigits]
    exact fun _ => Decimal.isDigit_of_mem_digitChars
  have hvalue : digitsIn 10 (c :: ds) = n := by
    rw [digitsIn_eq hds, ← hdigits, Decimal.digitsValue_digitChars]
  have htext : toString n = String.ofList (c :: ds) := by
    rw [← hdigits]
    rfl
  have hliteral : intLiteral? false 10 (c :: ds) = some (.literal (.int (Int64.ofNat n))) := by
    simp [intLiteral?, hvalue, hn, Int64.ofInt_eq_ofNat]
  have hterm : expression nestingLimit ⟨nestingLimit, nestingLimit, nestingLimit⟩
      [.int 10 (c :: ds)] = some (.literal (.int (Int64.ofNat n)), []) := by
    have hexpression := expression_int (nestingLimit - 1) 10 (c :: ds)
    rwa [hliteral] at hexpression
  rw [htext, Term.parse?, tokens?_digits hds]
  simp only [Option.bind_eq_bind, Option.bind_some, hterm]

end Expr

namespace Schema

/-- The source of a literal count compiles to it. -/
theorem compile?_literalCount {n : Nat} (hn : n < Expr.countLimit) :
    Expr.compile? (literalCount n).source = some (literalCount n) := by
  have hmeaning : Language.meaning? (toString n) =
      some (Expr.Term.eval (.literal (.int (Int64.ofNat n)))) :=
    congrArg (Option.map Expr.Term.eval) (Expr.parse?_toString hn)
  rw [literalCount, Expr.compile?, hmeaning]
  rfl

theorem evalCount_literalCount {n : Nat} (hn : n < Expr.countLimit) (scope : Scope) :
    (literalCount n).evalCount scope = .ok n := by
  have hint : (Int64.ofNat n).toInt = n := Int64.toInt_ofNat_of_lt hn
  have heval : (literalCount n).eval scope = .ok (.int (Int64.ofNat n)) := by
    simp [literalCount, Expr.eval, Expr.Term.eval]
  rw [Expr.evalCount, heval]
  simp [Except.bind, Expr.countOf, hint]

end Schema

end Savefile
