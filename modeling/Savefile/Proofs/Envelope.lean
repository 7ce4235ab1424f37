import Savefile.Envelope
import Savefile.Proofs.Compression
import Savefile.Proofs.Text

/-!
# Envelopes and their contents

An envelope gives back the bytes and the version that it was made with, whatever white space stands
around it. Each layer is undone on its own: the mask, the stream, the base 64 digits, the marks.
-/
namespace Savefile

namespace Base64

theorem value?_digit {n : Nat} (hn : n < 64) : value? (digit n) = some n := by
  have hall : ∀ n < 64, value? (digit n) = some n := by decide
  exact hall n hn

theorem value?_padding : value? padding = none := by decide

theorem digit_ne_padding {n : Nat} (hn : n < 64) : digit n ≠ padding := by
  intro h
  have hvalue := value?_digit hn
  rw [h, value?_padding] at hvalue
  cases hvalue

/-- Everything that is written is a digit or padding. -/
theorem mem_encode {bs : List UInt8} {c : Char} (hc : c ∈ encode bs) :
    c = padding ∨ ∃ n < 64, c = digit n := by
  have hbyte : ∀ b : UInt8, b.toNat < 256 := fun b => b.toNat_lt
  fun_induction encode bs with
  | case1 => cases hc
  | case2 a =>
    have ha := hbyte a
    simp only [List.mem_cons, List.not_mem_nil, or_false] at hc
    rcases hc with rfl | rfl | rfl | rfl
    · exact .inr ⟨_, by omega, rfl⟩
    · exact .inr ⟨_, by omega, rfl⟩
    · exact .inl rfl
    · exact .inl rfl
  | case3 a b =>
    have ha := hbyte a
    have hb := hbyte b
    simp only [List.mem_cons, List.not_mem_nil, or_false] at hc
    rcases hc with rfl | rfl | rfl | rfl
    · exact .inr ⟨_, by omega, rfl⟩
    · exact .inr ⟨_, by omega, rfl⟩
    · exact .inr ⟨_, by omega, rfl⟩
    · exact .inl rfl
  | case4 a b d rest ih =>
    have ha := hbyte a
    have hb := hbyte b
    have hd := hbyte d
    simp only [List.mem_cons] at hc
    rcases hc with rfl | rfl | rfl | rfl | hrest
    · exact .inr ⟨_, by omega, rfl⟩
    · exact .inr ⟨_, by omega, rfl⟩
    · exact .inr ⟨_, by omega, rfl⟩
    · exact .inr ⟨_, by omega, rfl⟩
    · exact ih hrest

theorem isLineEnd_of_mem_encode {bs : List UInt8} {c : Char} (hc : c ∈ encode bs) :
    isLineEnd c = false := by
  have hall : ∀ n < 64, isLineEnd (digit n) = false := by decide
  rcases mem_encode hc with rfl | ⟨n, hn, rfl⟩
  · rfl
  · exact hall n hn

/-- A group that ends in a digit is read in the same way whether or not it is the last one. -/
theorem decodeGroups?_cons {x y z w : Nat} (hx : x < 64) (hy : y < 64) (hz : z < 64) (hw : w < 64)
    (rest : List Char) :
    decodeGroups? (digit x :: digit y :: digit z :: digit w :: rest) =
      (decodeGroups? rest).map
        ([firstByte x y, secondByte y z, thirdByte z w] ++ ·) := by
  cases rest with
  | nil =>
    simp [decodeGroups?, decodeLast?, value?_digit, digit_ne_padding, hx, hy, hz, hw]
  | cons c rest =>
    rw [decodeGroups?.eq_3 _ _ _ _ _ (by simp)]
    simp only [value?_digit, hx, hy, hz, hw, Option.bind_eq_bind, Option.bind_some]
    cases decodeGroups? (c :: rest) <;> rfl

section Bytes

variable (a : UInt8) {s t : Nat}

theorem firstByte_eq (ht : t < 16) : firstByte (a.toNat / 4) (a.toNat % 4 * 16 + t) = a := by
  have hsum : a.toNat / 4 * 4 + (a.toNat % 4 * 16 + t) / 16 = a.toNat := by omega
  rw [firstByte, hsum]
  exact UInt8.ofNat_toNat

theorem secondByte_eq (ht : t < 4) :
    secondByte (s * 16 + a.toNat / 16) (a.toNat % 16 * 4 + t) = a := by
  have ha := a.toNat_lt
  have hsum : (s * 16 + a.toNat / 16) % 16 * 16 + (a.toNat % 16 * 4 + t) / 4 = a.toNat := by omega
  rw [secondByte, hsum]
  exact UInt8.ofNat_toNat

theorem thirdByte_eq : thirdByte (s * 4 + a.toNat / 64) (a.toNat % 64) = a := by
  have ha := a.toNat_lt
  have hsum : (s * 4 + a.toNat / 64) % 4 * 64 + a.toNat % 64 = a.toNat := by omega
  rw [thirdByte, hsum]
  exact UInt8.ofNat_toNat

end Bytes

theorem decodeGroups?_encode (bs : List UInt8) : decodeGroups? (encode bs) = some bs := by
  have hbyte : ∀ b : UInt8, b.toNat < 256 := fun b => b.toNat_lt
  fun_induction encode bs with
  | case1 => rfl
  | case2 a =>
    have ha := hbyte a
    have h₁ : a.toNat / 4 < 64 := by omega
    have h₂ : a.toNat % 4 * 16 < 64 := by omega
    have hfirst := firstByte_eq a (t := 0) (by decide)
    simp only [Nat.add_zero] at hfirst
    simp [decodeGroups?, decodeLast?, value?_digit, h₁, h₂, hfirst]
  | case3 a b =>
    have ha := hbyte a
    have hb := hbyte b
    have h₁ : a.toNat / 4 < 64 := by omega
    have h₂ : a.toNat % 4 * 16 + b.toNat / 16 < 64 := by omega
    have h₃ : b.toNat % 16 * 4 < 64 := by omega
    have hfirst := firstByte_eq a (t := b.toNat / 16) (by omega)
    have hsecond := secondByte_eq b (s := a.toNat % 4) (t := 0) (by decide)
    simp only [Nat.add_zero] at hsecond
    simp [decodeGroups?, decodeLast?, value?_digit, digit_ne_padding, h₁, h₂, h₃, hfirst, hsecond]
  | case4 a b c rest ih =>
    have ha := hbyte a
    have hb := hbyte b
    have hc := hbyte c
    rw [decodeGroups?_cons (by omega) (by omega) (by omega) (by omega), ih,
      firstByte_eq a (by omega), secondByte_eq b (by omega), thirdByte_eq c]
    rfl

theorem decode?_encode (bs : List UInt8) : decode? (encode bs) = some bs := by
  have hkept : (encode bs).filter (fun c => !isLineEnd c) = encode bs := by
    rw [List.filter_eq_self]
    intro c hc
    simp [isLineEnd_of_mem_encode hc]
  rw [decode?, hkept, decodeGroups?_encode]

end Base64

namespace Envelope

theorem maskWith_maskWith (ks bs : List UInt8) : maskWith ks (maskWith ks bs) = bs := by
  have htwice : ∀ b k : UInt8, b ^^^ k ^^^ k = b := fun b k => by
    rw [UInt8.xor_assoc, UInt8.xor_self, UInt8.xor_zero]
  induction bs generalizing ks with
  | nil => cases ks <;> rfl
  | cons b bs ih =>
    cases ks with
    | cons k ks => simp only [maskWith, ih, htwice]
    | nil =>
      cases hkey : key with
      | nil => simp only [maskWith, hkey]
      | cons k ks => simp only [maskWith, hkey, ih, htwice]

theorem mask_mask (bs : List UInt8) : mask (mask bs) = bs := maskWith_maskWith key bs

theorem parts?_line {version : Nat} {body : List Char} (hversion : version ≤ lastVersion)
    (hbody : '\n' ∉ body) : parts? (line version body) = some (version, body) := by
  have hlast : version < 100 := Nat.lt_succ_of_le hversion
  have hdigit : ∀ n < 10, (Nat.digitChar n).isDigit ∧ (Nat.digitChar n).toNat - 48 = n := by
    decide
  obtain ⟨htens, htens'⟩ := hdigit (version / 10) (by omega)
  obtain ⟨hones, hones'⟩ := hdigit (version % 10) (by omega)
  have hsum : version / 10 * 10 + version % 10 = version := by omega
  simp [parts?, line, htens, hones, htens', hones', hsum, hbody]

theorem version_le_of_parts? {text body : List Char} {version : Nat}
    (h : parts? text = some (version, body)) : version ≤ lastVersion := by
  unfold parts? at h
  split at h
  · dsimp only at h
    split at h
    · rename_i a b rest hmarks
      cases h
      simp only [Bool.and_eq_true, Char.isDigit_iff_toNat] at hmarks
      obtain ⟨⟨⟨⟨_, ha⟩, _, hb⟩, _⟩, _⟩ := hmarks
      have hnine : '9'.toNat = '0'.toNat + 9 := rfl
      rw [lastVersion]
      omega
    · cases h
  · cases h

theorem trimChars_line (version : Nat) (body : List Char) {before after : List Char}
    (hbefore : ∀ c ∈ before, Text.isSpace c) (hafter : ∀ c ∈ after, Text.isSpace c) :
    Text.trimChars (before ++ line version body ++ after) = line version body := by
  refine Text.trimChars_append hbefore hafter ?_ ?_
  · rintro c ⟨⟩
    decide
  · intro c hc
    obtain ⟨front, hline⟩ : ∃ front, line version body = front ++ ['e'] :=
      ⟨'$' :: Nat.digitChar (version / 10) :: Nat.digitChar (version % 10) :: 's' ::
        (body ++ ['$']), by simp [line]⟩
    obtain rfl : 'e' = c := by simpa [hline] using hc
    decide

section Wrap

variable {version : Nat}

theorem version_le_of_unwrap {text : List Char} {bytes : List UInt8}
    (h : unwrap text = .ok (bytes, version)) : version ≤ lastVersion := by
  unfold unwrap expand at h
  split at h
  · cases h
  · rename_i body hparts
    split at h
    · cases h
    · split at h
      · cases h
      · cases h
        exact version_le_of_parts? hparts

variable (bytes : List UInt8)

theorem wrap_eq (hversion : version ≤ lastVersion) :
    wrap bytes version = .ok (line version (Base64.encode (Deflate.toStream (mask bytes)))) := by
  rw [wrap, if_neg (by omega), Int.toNat_natCast]

/-- An envelope holds whatever its stream expands to, and white space around it changes nothing. -/
theorem unwrap_stream (hversion : version ≤ lastVersion) {stream : List UInt8}
    (hstream : Deflate.ofStream stream = .ok (mask bytes)) {before after : List Char}
    (hbefore : ∀ c ∈ before, Text.isSpace c) (hafter : ∀ c ∈ after, Text.isSpace c) :
    unwrap (before ++ line version (Base64.encode stream) ++ after) = .ok (bytes, version) := by
  have hline : '\n' ∉ Base64.encode stream := by
    intro hmem
    have hend := Base64.isLineEnd_of_mem_encode hmem
    cases hend
  rw [unwrap, expand, trimChars_line _ _ hbefore hafter, parts?_line hversion hline]
  simp only [Base64.decode?_encode, hstream, Except.map, mask_mask]

theorem unwrap_line (hversion : version ≤ lastVersion) {before after : List Char}
    (hbefore : ∀ c ∈ before, Text.isSpace c) (hafter : ∀ c ∈ after, Text.isSpace c) :
    unwrap (before ++ line version (Base64.encode (Deflate.toStream (mask bytes))) ++ after) =
      .ok (bytes, version) :=
  unwrap_stream bytes hversion (Deflate.ofStream_toStream _) hbefore hafter

theorem wrap_ok_iff {version : Int} {text : List Char} :
    wrap bytes version = .ok text ↔ ∃ v : Nat, version = v ∧ v ≤ lastVersion ∧
      text = line v (Base64.encode (Deflate.toStream (mask bytes))) := by
  constructor
  · intro h
    unfold wrap at h
    split at h
    · cases h
    · rename_i hrange
      cases h
      exact ⟨version.toNat, by omega, by omega, rfl⟩
  · rintro ⟨v, rfl, hv, rfl⟩
    exact wrap_eq bytes hv

/-- Bytes can be put into an envelope just for the versions of two digits. Whatever white space is
put around it, the envelope gives back the bytes and the version. What was taken out of any text can
be put into an envelope again, and is taken out of that as well. -/
theorem wrap_lossless (bytes : List UInt8) (version : Int) :
    ((∃ text, wrap bytes version = .ok text) ↔ 0 ≤ version ∧ version ≤ 99) ∧
    (∀ text before after, wrap bytes version = .ok text → (∀ c ∈ before, Text.isSpace c) →
      (∀ c ∈ after, Text.isSpace c) → ∃ v : Nat, (v : Int) = version ∧
        unwrapBytes (Text.encode (before ++ text ++ after)) = .ok (bytes, v)) ∧
    ∀ data v, unwrapBytes data = .ok (bytes, v) →
      ∃ text, wrap bytes v = .ok text ∧ unwrapBytes (Text.encode text) = .ok (bytes, v) := by
  refine ⟨⟨?_, ?_⟩, ?_, ?_⟩
  · rintro ⟨text, h⟩
    obtain ⟨v, rfl, hv, -⟩ := (wrap_ok_iff bytes).mp h
    rw [lastVersion] at hv
    omega
  · rintro ⟨hlow, hhigh⟩
    obtain ⟨v, rfl⟩ := Int.eq_ofNat_of_zero_le hlow
    exact ⟨_, wrap_eq bytes (by rw [lastVersion]; omega)⟩
  · intro text before after h hbefore hafter
    obtain ⟨v, rfl, hv, rfl⟩ := (wrap_ok_iff bytes).mp h
    refine ⟨v, rfl, ?_⟩
    rw [unwrapBytes, Text.decodeLossy_encode, unwrap_line bytes hv hbefore hafter]
  · intro data v h
    have hv := version_le_of_unwrap h
    refine ⟨_, wrap_eq bytes hv, ?_⟩
    have hunwrap := unwrap_line bytes hv (List.forall_mem_nil _) (List.forall_mem_nil _)
    rw [List.nil_append, List.append_nil] at hunwrap
    rw [unwrapBytes, Text.decodeLossy_encode, hunwrap]

/-- White space of several kinds stands around the envelope. The other text spells the same bytes,
with a carriage return among its digits and bits left over in the last of them. -/
theorem wrap_lossless_other_spelling :
    ∃ text, wrap [1, 2, 0] 7 = .ok text ∧
      unwrapBytes (Text.encode ("\n\u3000".toList ++ text ++ "\t\r\n".toList)) =
        .ok ([1, 2, 0], 7) ∧
      unwrapBytes (Text.encode "$07seJwrzUoF\rAAKbAUV=$e".toList) = .ok ([1, 2, 0], 7) ∧
      unwrapBytes (Text.encode text) = .ok ([1, 2, 0], 7) := by
  have heval : (unwrapBytes (Text.encode "$07seJwrzUoF\rAAKbAUV=$e".toList)).toOption =
      some ([1, 2, 0], 7) := by decide +kernel
  have hother : unwrapBytes (Text.encode "$07seJwrzUoF\rAAKbAUV=$e".toList) =
      .ok ([1, 2, 0], 7) := by
    cases hunwrap : unwrapBytes (Text.encode "$07seJwrzUoF\rAAKbAUV=$e".toList) with
    | error e =>
      rw [hunwrap] at heval
      cases heval
    | ok found =>
      rw [hunwrap] at heval
      rw [Option.some.inj heval]
  obtain ⟨-, hback, hagain⟩ := wrap_lossless [1, 2, 0] 7
  obtain ⟨text, htext, hunwrap⟩ := hagain _ 7 hother
  have hbefore : "\n\u3000".toList.all Text.isSpace = true := by decide +kernel
  have hafter : "\t\r\n".toList.all Text.isSpace = true := by decide +kernel
  obtain ⟨v, hv, hspace⟩ := hback text "\n\u3000".toList "\t\r\n".toList htext
    (List.all_eq_true.mp hbefore) (List.all_eq_true.mp hafter)
  obtain rfl : v = 7 := by omega
  exact ⟨text, htext, hspace, hother, hunwrap⟩

end Wrap

end Envelope

end Savefile
