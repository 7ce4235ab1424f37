import Savefile.Command.Format
import Savefile.Proofs.Envelope

/-!
# Packed save data

Whatever the format, and with or without a checksum, unpacking gives back the bytes that were
packed. An envelope gives back the version as well.
-/
namespace Savefile

namespace Hex

theorem hexPadded_two (n : Nat) :
    Text.hexPadded 2 n = [Text.hexDigit (n / 16 % 16), Text.hexDigit (n % 16)] := rfl

theorem encode_hexDigit {n : Nat} (hn : n < 16) :
    String.utf8EncodeChar (Text.hexDigit n) = [UInt8.ofNat (Text.hexDigit n).toNat] := by
  have hall : ∀ n < 16, String.utf8EncodeChar (Text.hexDigit n) =
      [UInt8.ofNat (Text.hexDigit n).toNat] := by decide
  exact hall n hn

theorem digit_hexDigit {n : Nat} (hn : n < 16) :
    digit (UInt8.ofNat (Text.hexDigit n).toNat) = .ok n := by
  have hall : ∀ n < 16, Decimal.hexValue?
      (Char.ofNat (UInt8.ofNat (Text.hexDigit n).toNat).toNat) = some n := by decide
  rw [digit, hall n hn]

theorem decode_encode (bytes : List UInt8) : decode (Text.encode (encode bytes)) = .ok bytes := by
  induction bytes with
  | nil => rfl
  | cons b bytes ih =>
    have hb := b.toNat_lt
    have hhigh : b.toNat / 16 % 16 < 16 := by omega
    have hlow : b.toNat % 16 < 16 := by omega
    have hsum : b.toNat / 16 % 16 * 16 + b.toNat % 16 = b.toNat := by omega
    have hcons : Text.encode (encode (b :: bytes)) =
        UInt8.ofNat (Text.hexDigit (b.toNat / 16 % 16)).toNat ::
          UInt8.ofNat (Text.hexDigit (b.toNat % 16)).toNat :: Text.encode (encode bytes) := by
      rw [encode, List.flatMap_cons, hexPadded_two, Text.encode_append, Text.encode_cons,
        Text.encode_cons, encode_hexDigit hhigh, encode_hexDigit hlow]
      rfl
    rw [hcons, decode, digit_hexDigit hhigh, digit_hexDigit hlow, ih]
    simp only [ok_bind, hsum]
    exact congrArg (fun b => Except.ok (b :: bytes)) UInt8.ofNat_toNat

theorem isSpace_of_mem_encode {bytes : List UInt8} {c : Char} (hc : c ∈ encode bytes) :
    Text.isSpace c = false := by
  have hall : ∀ n < 16, Text.isSpace (Text.hexDigit n) = false := by decide
  obtain ⟨b, _, hb⟩ := List.mem_flatMap.mp hc
  simp only [hexPadded_two, List.mem_cons, List.not_mem_nil, or_false] at hb
  rcases hb with rfl | rfl
  · exact hall _ (Nat.mod_lt _ (by decide))
  · exact hall _ (Nat.mod_lt _ (by decide))

end Hex

namespace Checksum

theorem split_append (bytes : List UInt8) : split (append bytes) = .ok bytes := by
  have hword : (Bytes.word .big size (ofBytes bytes).toNat).length = size :=
    Bytes.length_word _ _ _
  have hsum : Bytes.ofWord .big (Bytes.word .big size (ofBytes bytes).toNat) =
      (ofBytes bytes).toNat := by
    rw [Bytes.ofWord_word]
    exact Nat.mod_eq_of_lt (ofBytes bytes).isLt
  simp [split, append, hword, hsum]

end Checksum

namespace Command.Packing

theorem withoutSpace_encode (cs : List Char) :
    withoutSpace (Text.encode cs) = Text.encode (cs.filter fun c => !Text.isSpace c) := by
  rw [withoutSpace, Text.split_encode]
  induction cs with
  | nil => rfl
  | cons c cs ih =>
    cases hc : Text.isSpace c with
    | true => simpa [hc] using ih
    | false => simpa [hc, Text.encode_cons] using ih

theorem openData_lineBytes_hex (bytes : List UInt8) :
    openData .hex (lineBytes (Hex.encode bytes)) = .ok (bytes, 0) := by
  have hkept : (Hex.encode bytes ++ ['\n']).filter (fun c => !Text.isSpace c) =
      Hex.encode bytes := by
    rw [List.filter_append, List.filter_eq_self.mpr]
    · exact List.append_nil _
    · intro c hc
      simp [Hex.isSpace_of_mem_encode hc]
  rw [openData, lineBytes, withoutSpace_encode, hkept, Hex.decode_encode]

theorem openData_lineBytes_envelope (bytes : List UInt8) {version : Nat}
    (hversion : version ≤ Envelope.lastVersion) :
    openData .envelope (lineBytes (Envelope.line version
      (Base64.encode (Deflate.toStream (Envelope.mask bytes))))) = .ok (bytes, version) := by
  have hspace : ∀ c ∈ ['\n'], Text.isSpace c := by
    intro c hc
    rw [List.mem_singleton.mp hc]
    decide
  have hunwrap := Envelope.unwrap_line bytes hversion (List.forall_mem_nil _) hspace
  rw [openData, lineBytes, Envelope.unwrapBytes, Text.decodeLossy_encode]
  exact congrArg (Except.mapError PackingError.envelope) hunwrap

/-- The version that packed data has: only envelopes keep theirs. -/
def keptVersion (p : Packing) (version : Nat) : Nat :=
  match p.format with
  | .envelope => version
  | .raw | .hex => 0

theorem pack_eq (p : Packing) (bytes : List UInt8) {version : Nat}
    (hversion : version ≤ Envelope.lastVersion) :
    ∃ packed, p.pack bytes version = .ok packed ∧
      openData p.format packed =
        .ok (if p.checksum then Checksum.append bytes else bytes, p.keptVersion version) := by
  obtain ⟨format, checksum⟩ := p
  cases format with
  | envelope =>
    refine ⟨_, ?_, openData_lineBytes_envelope _ hversion⟩
    rw [pack, Envelope.wrap_eq _ hversion]
    rfl
  | raw => exact ⟨_, rfl, rfl⟩
  | hex => exact ⟨_, rfl, openData_lineBytes_hex _⟩

/-- Packing succeeds for every version of two digits, and unpacking gives back what was packed. -/
theorem exists_pack (p : Packing) (bytes : List UInt8) {version : Nat}
    (hversion : version ≤ Envelope.lastVersion) :
    ∃ packed, p.pack bytes version = .ok packed ∧
      p.unpack packed = .ok (bytes, p.keptVersion version) := by
  obtain ⟨packed, hpack, hopen⟩ := pack_eq p bytes hversion
  refine ⟨packed, hpack, ?_⟩
  rw [unpack, hopen]
  cases hsum : p.checksum with
  | false => simp [Except.bind]
  | true => simp [Except.bind, Checksum.split_append]

theorem version_le_of_openData {format : Format} {data bytes : List UInt8} {version : Nat}
    (h : openData format data = .ok (bytes, version)) : version ≤ Envelope.lastVersion := by
  cases format with
  | envelope =>
    rw [openData, Envelope.unwrapBytes] at h
    cases hunwrap : Envelope.unwrap (Text.decodeLossy data) with
    | error e =>
      rw [hunwrap] at h
      cases h
    | ok unwrapped =>
      rw [hunwrap] at h
      cases h
      exact Envelope.version_le_of_unwrap hunwrap
  | raw =>
    cases h
    exact Nat.zero_le _
  | hex =>
    rw [openData] at h
    split at h <;> cases h
    exact Nat.zero_le _

theorem version_le_of_unpack {p : Packing} {data bytes : List UInt8} {version : Nat}
    (h : p.unpack data = .ok (bytes, version)) : version ≤ Envelope.lastVersion := by
  unfold unpack at h
  cases hopen : openData p.format data with
  | error e =>
    rw [hopen] at h
    cases h
  | ok opened =>
    obtain ⟨opened, kept⟩ := opened
    have hkept := version_le_of_openData hopen
    simp only [hopen, Except.bind] at h
    split at h
    · split at h <;> cases h
      exact hkept
    · cases h
      exact hkept

end Command.Packing

end Savefile
