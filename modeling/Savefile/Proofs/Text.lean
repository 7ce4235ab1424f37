import Savefile.Text.Space
import Savefile.Text.Utf8

/-!
# Text and its bytes

Text survives being written as bytes and read again, character by character, and white space around
a text can be taken off without touching it.
-/
namespace Savefile.Text

section Utf8

variable {b₀ b₁ b₂ b₃ : UInt8} {x y z n : Nat} (rest : List UInt8)

theorem continuation?_ofNat (hx : x < 0x40) :
    continuation? (UInt8.ofNat (x + 0x80)) = some x := by
  have hbyte : (x + 128) % 256 = x + 128 := Nat.mod_eq_of_lt (by omega)
  have hhigh : x + 128 ≤ 191 := by omega
  simp [continuation?, UInt8.le_iff_toNat_le, hbyte, hhigh]

theorem leadingChar?_one (hb : b₀.toNat = n) (hn : n < 0x80) :
    leadingChar? (b₀ :: rest) = some (Char.ofNat n, 1) := by
  subst hb
  exact if_pos (UInt8.lt_iff_toNat_lt.mpr hn)

theorem leadingChar?_two (hlow : 0xc2 ≤ b₀.toNat) (hhigh : b₀.toNat ≤ 0xdf)
    (h₁ : continuation? b₁ = some x) (hn : (b₀.toNat - 0xc0) * 0x40 + x = n) :
    leadingChar? (b₀ :: b₁ :: rest) = some (Char.ofNat n, 2) := by
  have hone : ¬b₀.toNat < 0x80 := by omega
  simp [leadingChar?, UInt8.lt_iff_toNat_lt, UInt8.le_iff_toNat_le, hone, hlow, hhigh, h₁, hn]

theorem leadingChar?_three (hlow : 0xe0 ≤ b₀.toNat) (hhigh : b₀.toNat ≤ 0xef)
    (h₁ : continuation? b₁ = some x) (h₂ : continuation? b₂ = some y)
    (hn : (b₀.toNat - 0xe0) * 0x1000 + x * 0x40 + y = n) (hleast : 0x800 ≤ n)
    (hpair : ¬(0xd800 ≤ n ∧ n ≤ 0xdfff)) :
    leadingChar? (b₀ :: b₁ :: b₂ :: rest) = some (Char.ofNat n, 3) := by
  have hone : ¬b₀.toNat < 0x80 := by omega
  have htwo : ¬b₀.toNat ≤ 0xdf := by omega
  simp [leadingChar?, UInt8.lt_iff_toNat_lt, UInt8.le_iff_toNat_le, hone, htwo, hlow, hhigh, h₁,
    h₂, hn]
  omega

theorem leadingChar?_four (hlow : 0xf0 ≤ b₀.toNat) (hhigh : b₀.toNat ≤ 0xf4)
    (h₁ : continuation? b₁ = some x) (h₂ : continuation? b₂ = some y)
    (h₃ : continuation? b₃ = some z)
    (hn : (b₀.toNat - 0xf0) * 0x40000 + x * 0x1000 + y * 0x40 + z = n) (hleast : 0x10000 ≤ n)
    (hmost : n ≤ 0x10ffff) :
    leadingChar? (b₀ :: b₁ :: b₂ :: b₃ :: rest) = some (Char.ofNat n, 4) := by
  have hone : ¬b₀ < 0x80 := by
    simp only [UInt8.lt_iff_toNat_lt, UInt8.reduceToNat]
    omega
  have htwo : ¬(0xc2 ≤ b₀ && b₀ ≤ 0xdf) = true := by
    simp [UInt8.le_iff_toNat_le]
    omega
  have hthree : ¬(0xe0 ≤ b₀ && b₀ ≤ 0xef) = true := by
    simp [UInt8.le_iff_toNat_le]
    omega
  have hfour : (0xf0 ≤ b₀ && b₀ ≤ 0xf4) = true := by simp [UInt8.le_iff_toNat_le, hlow, hhigh]
  have hrange : ¬(n < 0x10000 || 0x10ffff < n) = true := by
    simp
    omega
  rw [leadingChar?, if_neg hone, if_neg htwo, if_neg hthree, if_pos hfour]
  dsimp only
  -- Rewriting one bind at a time keeps the kernel from comparing `n` with the last code point.
  rw [h₁, Option.bind_eq_bind, Option.bind_some, h₂, Option.bind_some, h₃, Option.bind_some, hn,
    if_neg hrange]

/-- The bytes of a character are read as this character. -/
theorem leadingChar?_encode (c : Char) :
    leadingChar? (String.utf8EncodeChar c ++ rest) =
      some (c, (String.utf8EncodeChar c).length) := by
  have hvalid : c.val.toNat < 0xd800 ∨ 0xdfff < c.val.toNat ∧ c.val.toNat < 0x110000 := c.valid
  have hc : Char.ofNat c.val.toNat = c := Char.ofNat_toNat c
  have hbyte : ∀ n < 256, (UInt8.ofNat n).toNat = n := fun n hn => by
    rw [UInt8.toNat_ofNat', Nat.mod_eq_of_lt hn]
  unfold String.utf8EncodeChar
  generalize c.val.toNat = v at hvalid hc
  rw [← hc]
  dsimp only
  split
  · exact leadingChar?_one rest (hbyte _ (by omega)) (by omega)
  · split
    · have hhead := hbyte (v / 64 % 0x20 + 0xc0) (by omega)
      exact leadingChar?_two rest (by omega) (by omega) (continuation?_ofNat (by omega)) (by omega)
    · split
      · have hhead := hbyte (v / 4096 % 0x10 + 0xe0) (by omega)
        exact leadingChar?_three rest (by omega) (by omega) (continuation?_ofNat (by omega))
          (continuation?_ofNat (by omega)) (by omega) (by omega) (by omega)
      · have hhead := hbyte (v / 262144 % 0x08 + 0xf0) (by omega)
        exact leadingChar?_four rest (by omega) (by omega) (continuation?_ofNat (by omega))
          (continuation?_ofNat (by omega)) (continuation?_ofNat (by omega)) (by omega) (by omega)
          (by omega)

theorem splitFrom_length (skipped : List UInt8) :
    splitFrom skipped.length (skipped ++ rest) = split rest := by
  induction skipped with
  | nil => rfl
  | cons b bs ih => exact ih

theorem split_encodeChar (c : Char) :
    split (String.utf8EncodeChar c ++ rest) = (c, String.utf8EncodeChar c) :: split rest := by
  have hlead := leadingChar?_encode rest c
  rcases hbytes : String.utf8EncodeChar c with _ | ⟨b, bs⟩
  · exact absurd hbytes String.utf8EncodeChar_ne_nil
  · rw [hbytes, List.cons_append] at hlead
    simp [split, splitFrom, hlead, splitFrom_length]

end Utf8

@[simp] theorem encode_nil : encode [] = [] := rfl

theorem encode_cons (c : Char) (cs : List Char) :
    encode (c :: cs) = String.utf8EncodeChar c ++ encode cs := rfl

theorem encode_append (cs ds : List Char) : encode (cs ++ ds) = encode cs ++ encode ds :=
  List.flatMap_append

/-- The bytes of a text fall apart into those of its characters. -/
theorem split_encode (cs : List Char) :
    split (encode cs) = cs.map fun c => (c, String.utf8EncodeChar c) := by
  induction cs with
  | nil => rfl
  | cons c cs ih => rw [encode_cons, split_encodeChar, ih, List.map_cons]

theorem decodeLossy_encode (cs : List Char) : decodeLossy (encode cs) = cs := by
  rw [decodeLossy, split_encode, List.map_map]
  exact List.map_id cs

section Trim

variable {before after cs : List Char}

theorem dropWhile_isSpace_append (hbefore : ∀ c ∈ before, isSpace c)
    (hhead : ∀ c, cs.head? = some c → isSpace c = false) :
    (before ++ cs).dropWhile isSpace = cs := by
  rw [List.dropWhile_append_of_pos hbefore]
  cases cs with
  | nil => rfl
  | cons c cs => exact List.dropWhile_cons_of_neg (by simp [hhead c rfl])

/-- Trimming takes off the white space around a text that neither begins nor ends with any. -/
theorem trimChars_append (hbefore : ∀ c ∈ before, isSpace c) (hafter : ∀ c ∈ after, isSpace c)
    (hhead : ∀ c, cs.head? = some c → isSpace c = false)
    (hlast : ∀ c, cs.getLast? = some c → isSpace c = false) :
    trimChars (before ++ cs ++ after) = cs := by
  rcases cs.eq_nil_or_concat with rfl | ⟨init, last, rfl⟩
  · have hall : ∀ c ∈ before ++ after, isSpace c := by
      intro c hc
      exact (List.mem_append.mp hc).elim (hbefore c) (hafter c)
    have hnone := dropWhile_isSpace_append hall hhead
    rw [List.append_nil] at hnone ⊢
    rw [trimChars, hnone]
    rfl
  · simp only [List.concat_eq_append] at hhead hlast ⊢
    have hfront : (before ++ (init ++ [last]) ++ after).dropWhile isSpace =
        init ++ [last] ++ after := by
      rw [List.append_assoc]
      refine dropWhile_isSpace_append hbefore fun c hc => hhead c ?_
      cases init <;> simpa using hc
    have hback : ((init ++ [last] ++ after).reverse).dropWhile isSpace =
        (init ++ [last]).reverse := by
      rw [List.reverse_append]
      refine dropWhile_isSpace_append (by simpa using hafter) fun c hc => hlast c ?_
      rwa [List.head?_reverse] at hc
    rw [trimChars, hfront, hback, List.reverse_reverse]

end Trim

end Savefile.Text
