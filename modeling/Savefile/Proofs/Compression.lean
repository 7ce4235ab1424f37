import Mathlib.Algebra.Group.Nat.Defs
import Savefile.Deflate.Zlib
import Savefile.Proofs.FixedBlock
import Savefile.Proofs.Result
import Savefile.Proofs.Scalar

/-!
# Compressed data and its expansion

Expanding looks only at the bytes that it takes, so bytes that follow a stream change nothing.
Data is either compressed in one block with the fixed code or stored in blocks that are read back
one by one, whichever is shorter. Both expand to the data, so every stream made expands to what it
was made from.
-/
namespace Savefile.Deflate

namespace BitSource

/-- The source with further bytes behind it. -/
def extend (s : BitSource) (tail : List UInt8) : BitSource := ⟨s.bits, s.bytes ++ tail⟩

variable {s s' : BitSource} (tail : List UInt8)

theorem next?_extend {b : Bool} (h : s.next? = some (b, s')) :
    (s.extend tail).next? = some (b, s'.extend tail) := by
  obtain ⟨bits, bytes⟩ := s
  cases bits with
  | cons b bits =>
    cases h
    rfl
  | nil =>
    cases bytes with
    | nil => cases h
    | cons byte bytes =>
      cases h
      rfl

theorem take?_extend {width n : Nat} (h : s.take? width = some (n, s')) :
    (s.extend tail).take? width = some (n, s'.extend tail) := by
  induction width generalizing s n with
  | zero =>
    cases h
    rfl
  | succ width ih =>
    rw [take?] at h
    split at h
    · cases h
    · rename_i b s₁ hnext
      split at h
      · cases h
      · rename_i m s₂ htake
        cases h
        rw [take?, next?_extend tail hnext]
        dsimp only
        rw [ih htake]

theorem holds_extend {n : Nat} (h : s.holds n) : (s.extend tail).holds n := by
  simp only [holds, extend, List.length_take, List.length_append, decide_eq_true_eq] at h ⊢
  omega

theorem size_le_extend (s : BitSource) : s.size ≤ (s.extend tail).size := by
  simp only [size, extend, List.length_append]
  omega

end BitSource

section Extend

variable {s s' : BitSource} (tail : List UInt8)

theorem takeBits_extend {width n : Nat} (h : takeBits width s = .ok (n, s')) :
    takeBits width (s.extend tail) = .ok (n, s'.extend tail) := by
  unfold takeBits at h
  split at h
  · rename_i r hr
    cases h
    rw [takeBits, BitSource.take?_extend tail hr]
  · cases h

theorem Code.take_extend {code : Code} {n : Nat} (h : code.take s = .ok (n, s')) :
    code.take (s.extend tail) = .ok (n, s'.extend tail) := by
  induction code generalizing s with
  | unused => cases h
  | symbol sym =>
    cases h
    rfl
  | choice zero one ihzero ihone =>
    rw [Code.take] at h
    split at h
    · cases h
    · rename_i s₁ hnext
      rw [Code.take, BitSource.next?_extend tail hnext]
      exact ihone h
    · rename_i s₁ hnext
      rw [Code.take, BitSource.next?_extend tail hnext]
      exact ihzero h

theorem takeTriples_extend {count : Nat} {ns : List Nat} (h : takeTriples count s = .ok (ns, s')) :
    takeTriples count (s.extend tail) = .ok (ns, s'.extend tail) := by
  induction count generalizing s ns with
  | zero =>
    cases h
    rfl
  | succ count ih =>
    obtain ⟨⟨n, s₁⟩, hn, h⟩ := exists_of_bind_ok h
    obtain ⟨⟨more, s₂⟩, hmore, h⟩ := exists_of_bind_ok h
    cases h
    simp [takeTriples, takeBits_extend tail hn, ih hmore]

theorem takeLengths_extend {code : Code} {count steps : Nat} {before ns : List Nat}
    (h : takeLengths code count steps before s = .ok (ns, s')) :
    takeLengths code count steps before (s.extend tail) = .ok (ns, s'.extend tail) := by
  induction steps generalizing s before with
  | zero =>
    cases h
    rfl
  | succ steps ih =>
    rw [takeLengths] at h ⊢
    split at h
    · rename_i hfull
      cases h
      rw [if_pos hfull]
    · rename_i hfull
      rw [if_neg hfull]
      obtain ⟨⟨sym, s₁⟩, hsym, h⟩ := exists_of_bind_ok h
      rw [Code.take_extend tail hsym, ok_bind]
      dsimp only at h ⊢
      split at h
      · rename_i hlow
        rw [if_pos hlow]
        exact ih h
      · rename_i hlow
        rw [if_neg hlow]
        obtain ⟨⟨length, fewest, width⟩, hrule, h⟩ := exists_of_bind_ok h
        obtain ⟨⟨more, s₂⟩, hmore, h⟩ := exists_of_bind_ok h
        rw [hrule, ok_bind]
        dsimp only at h hmore ⊢
        rw [takeBits_extend tail hmore, ok_bind]
        dsimp only
        split at h
        · cases h
        · rename_i hroom
          rw [if_neg hroom]
          exact ih h

theorem takeCodes_extend {final : Bool} {codes : BlockCodes}
    (h : takeCodes final s = .ok (codes, s')) :
    takeCodes final (s.extend tail) = .ok (codes, s'.extend tail) := by
  rw [takeCodes] at h ⊢
  obtain ⟨⟨header, s₁⟩, hheader, h⟩ := exists_of_bind_ok h
  rw [takeBits_extend tail hheader, ok_bind]
  dsimp only at h ⊢
  split at h
  · cases h
  · rename_i hlimit
    rw [if_neg hlimit]
    obtain ⟨⟨triples, s₂⟩, htriples, h⟩ := exists_of_bind_ok h
    rw [takeTriples_extend tail htriples, ok_bind]
    dsimp only at h ⊢
    obtain ⟨lengthCode, hcode, h⟩ := exists_of_bind_ok h
    rw [hcode, ok_bind]
    obtain ⟨⟨lengths, s₃⟩, hlengths, h⟩ := exists_of_bind_ok h
    rw [takeLengths_extend tail hlengths, ok_bind]
    dsimp only at h ⊢
    obtain ⟨symbols, hsymbols, h⟩ := exists_of_bind_ok h
    rw [hsymbols, ok_bind]
    obtain ⟨distances, hdistances, h⟩ := exists_of_bind_ok h
    rw [hdistances, ok_bind]
    cases h
    rfl

theorem takeRanged_extend {ranges : List (Nat × Nat)} {i n : Nat}
    (h : takeRanged ranges i s = .ok (n, s')) :
    takeRanged ranges i (s.extend tail) = .ok (n, s'.extend tail) := by
  rw [takeRanged] at h ⊢
  split at h
  · cases h
  · obtain ⟨⟨more, s₁⟩, hmore, h⟩ := exists_of_bind_ok h
    cases h
    rw [takeBits_extend tail hmore, ok_bind]

/-- More steps than are taken change nothing either. -/
theorem expandSymbols_extend {codes : BlockCodes} {steps more : Nat} {out out' : Array UInt8}
    (h : expandSymbols codes steps out s = .ok (out', s')) (hmore : steps ≤ more) :
    expandSymbols codes more out (s.extend tail) = .ok (out', s'.extend tail) := by
  induction steps generalizing s out more with
  | zero => cases h
  | succ steps ih =>
    obtain ⟨more, rfl⟩ : ∃ m, more = m + 1 := ⟨more - 1, by omega⟩
    rw [expandSymbols] at h ⊢
    split at h
    · cases h
    · rename_i hholds
      have hholds' := BitSource.holds_extend tail (by simpa using hholds)
      rw [if_neg (by simpa using hholds')]
      obtain ⟨⟨sym, s₁⟩, hsym, h⟩ := exists_of_bind_ok h
      rw [Code.take_extend tail hsym, ok_bind]
      dsimp only at h ⊢
      split at h
      · rename_i hbyte
        rw [if_pos hbyte]
        exact ih h (by omega)
      · rename_i hbyte
        rw [if_neg hbyte]
        split at h
        · rename_i hend
          cases h
          rw [if_pos hend]
        · rename_i hend
          rw [if_neg hend]
          obtain ⟨⟨length, s₂⟩, hlength, h⟩ := exists_of_bind_ok h
          rw [takeRanged_extend tail hlength, ok_bind]
          obtain ⟨⟨distanceSym, s₃⟩, hdistanceSym, h⟩ := exists_of_bind_ok h
          dsimp only at hdistanceSym h ⊢
          rw [Code.take_extend tail hdistanceSym, ok_bind]
          obtain ⟨⟨distance, s₄⟩, hdistance, h⟩ := exists_of_bind_ok h
          dsimp only at hdistance h ⊢
          rw [takeRanged_extend tail hdistance, ok_bind]
          dsimp only
          split at h
          · cases h
          · rename_i hreach
            rw [if_neg hreach]
            exact ih h (by omega)

theorem expandStored_extend {out out' : Array UInt8} (h : expandStored out s = .ok (out', s')) :
    expandStored out (s.extend tail) = .ok (out', s'.extend tail) := by
  rw [expandStored] at h
  split at h
  · rename_i a b c d bytes hbytes
    have hbytes' : (s.extend tail).bytes = a :: b :: c :: d :: (bytes ++ tail) := by
      simp [BitSource.extend, hbytes]
    rw [expandStored, hbytes']
    dsimp only at h ⊢
    split at h
    · cases h
    · rename_i hcomplement
      rw [if_neg hcomplement]
      split at h
      · cases h
      · rename_i hroom
        have hlength : a.toNat + 256 * b.toNat ≤ bytes.length := by
          rw [List.length_take] at hroom
          omega
        cases h
        rw [List.take_append_of_le_length hlength, if_neg hroom,
          List.drop_append_of_le_length hlength]
        rfl
  · cases h

end Extend

/-- Expands one block of a kind. -/
def expandBlock (kind : Nat) (final : Bool) (out : Array UInt8) (s : BitSource) :
    Except InflateError (Array UInt8 × BitSource) :=
  match kind with
  | 0 => expandStored out s
  | 1 => fixedCodes >>= fun codes => expandSymbols codes (s.size + 1) out s
  | 2 => takeCodes final s >>= fun (codes, s) => expandSymbols codes (s.size + 1) out s
  | _ => .error .corrupt

theorem expandBlocks_succ (steps : Nat) (out : Array UInt8) (s : BitSource) :
    expandBlocks (steps + 1) out s = takeBits 3 s >>= fun (header, s) =>
      expandBlock (header / 2) (header % 2 == 1) out s >>= fun (out, s) =>
        if header % 2 == 1 then .ok (out, s) else expandBlocks steps out s := by
  rw [expandBlocks]
  congr 1
  funext ⟨header, s⟩
  dsimp only
  generalize header / 2 = kind
  match kind with
  | 0 => rfl
  | 1 => cases hcodes : fixedCodes <;> simp [expandBlock, hcodes]
  | 2 => cases hcodes : takeCodes (header % 2 == 1) s <;> simp [expandBlock, hcodes]
  | _ + 3 => rfl

section Extend

variable {s s' : BitSource} (tail : List UInt8)

theorem expandBlock_extend {kind : Nat} {final : Bool} {out out' : Array UInt8}
    (h : expandBlock kind final out s = .ok (out', s')) :
    expandBlock kind final out (s.extend tail) = .ok (out', s'.extend tail) := by
  unfold expandBlock at h ⊢
  split at h
  · exact expandStored_extend tail h
  · obtain ⟨codes, hcodes, h⟩ := exists_of_bind_ok h
    rw [hcodes, ok_bind]
    exact expandSymbols_extend tail h (Nat.succ_le_succ (s.size_le_extend tail))
  · obtain ⟨⟨codes, s₁⟩, hcodes, h⟩ := exists_of_bind_ok h
    rw [takeCodes_extend tail hcodes, ok_bind]
    exact expandSymbols_extend tail h (Nat.succ_le_succ (s₁.size_le_extend tail))
  · cases h

/-- More steps than are taken change nothing either. -/
theorem expandBlocks_extend {steps more : Nat} {out out' : Array UInt8}
    (h : expandBlocks steps out s = .ok (out', s')) (hmore : steps ≤ more) :
    expandBlocks more out (s.extend tail) = .ok (out', s'.extend tail) := by
  induction steps generalizing s out more with
  | zero => cases h
  | succ steps ih =>
    obtain ⟨more, rfl⟩ : ∃ m, more = m + 1 := ⟨more - 1, by omega⟩
    rw [expandBlocks_succ] at h ⊢
    obtain ⟨⟨header, s₁⟩, hheader, h⟩ := exists_of_bind_ok h
    obtain ⟨⟨out₁, s₂⟩, hblock, h⟩ := exists_of_bind_ok h
    rw [takeBits_extend tail hheader, ok_bind]
    dsimp only at h hblock ⊢
    rw [expandBlock_extend tail hblock, ok_bind]
    dsimp only
    split at h
    · rename_i hfinal
      cases h
      rw [if_pos hfinal]
    · rename_i hfinal
      rw [if_neg hfinal]
      exact ih h (by omega)

/-- Expanding looks at no byte behind the data. -/
theorem inflate_append {bytes out rest : List UInt8} (h : inflate bytes = .ok (out, rest)) :
    inflate (bytes ++ tail) = .ok (out, rest ++ tail) := by
  obtain ⟨⟨expanded, s⟩, hblocks, h⟩ := exists_of_bind_ok h
  cases h
  have hsize := (BitSource.ofBytes bytes).size_le_extend tail
  have hextend := expandBlocks_extend tail hblocks (Nat.succ_le_succ hsize)
  rw [inflate]
  exact congrArg (· >>= fun (out, s) => Except.ok (out.toList, s.bytes)) hextend

end Extend

section Stored

variable (tail : List UInt8)

/-- The header of a stored block is one byte: three bits, and five that are left over. -/
theorem takeBits_storedHeader (final : Bool) (bytes : List UInt8) :
    ∃ bits, takeBits 3 ⟨[], (if final then 1 else 0) :: bytes⟩ =
      .ok (if final then 1 else 0, ⟨bits, bytes⟩) := by
  cases final
  · exact ⟨_, rfl⟩
  · exact ⟨_, rfl⟩

/-- One step copies a stored block. -/
theorem expandBlocks_storedBlock {block : List UInt8} (hblock : block.length ≤ storedLimit)
    (final : Bool) (steps : Nat) (out : Array UInt8) :
    expandBlocks (steps + 1) out ⟨[], storedBlock final block ++ tail⟩ =
      if final then .ok (out ++ block, ⟨[], tail⟩)
      else expandBlocks steps (out ++ block) ⟨[], tail⟩ := by
  have hlimit : block.length < 65536 := by simpa [storedLimit] using Nat.lt_succ_of_le hblock
  have hlength : block.length % 256 + 256 * (block.length / 256 % 256) = block.length := by omega
  have hcomplement : (storedLimit - block.length) % 256 +
      256 * ((storedLimit - block.length) / 256 % 256) = 65535 - block.length := by
    rw [storedLimit]
    omega
  obtain ⟨bits, hheader⟩ := takeBits_storedHeader final ((storedBlock final block).tail ++ tail)
  have hbytes : storedBlock final block ++ tail =
      (if final then 1 else 0) :: ((storedBlock final block).tail ++ tail) := rfl
  have hstored : expandStored out ⟨bits, (storedBlock final block).tail ++ tail⟩ =
      .ok (out ++ block, ⟨[], tail⟩) := by
    simp [expandStored, storedBlock, hlength, hcomplement]
  rw [expandBlocks_succ, hbytes, hheader, ok_bind]
  cases final with
  | false => exact congrArg (· >>= _) hstored
  | true => exact congrArg (· >>= _) hstored

/-- Blocks that are stored as they are expand to the data, each in one step. -/
theorem expandBlocks_storedBlocks {more steps : Nat} {data : List UInt8}
    (hdata : data.length ≤ (more + 1) * storedLimit) (hsteps : more < steps) (out : Array UInt8) :
    expandBlocks steps out ⟨[], storedBlocks more data ++ tail⟩ =
      .ok (out ++ data, ⟨[], tail⟩) := by
  induction more generalizing data steps out with
  | zero =>
    obtain ⟨steps, rfl⟩ : ∃ n, steps = n + 1 := ⟨steps - 1, by omega⟩
    exact expandBlocks_storedBlock tail (by simpa using hdata) true steps out
  | succ more ih =>
    obtain ⟨steps, rfl⟩ : ∃ n, steps = n + 1 := ⟨steps - 1, by omega⟩
    rw [storedBlocks]
    split
    · rename_i hlast
      exact expandBlocks_storedBlock tail hlast true steps out
    · have hfirst : (data.take storedLimit).length ≤ storedLimit := List.length_take_le _ _
      have hrest : (data.drop storedLimit).length ≤ (more + 1) * storedLimit := by
        rw [List.length_drop]
        rw [Nat.succ_mul] at hdata
        omega
      have hparts : out ++ data.take storedLimit ++ data.drop storedLimit = out ++ data := by
        apply Array.ext'
        simp
      rw [List.append_assoc, expandBlocks_storedBlock _ hfirst, if_neg (by decide),
        ih hrest (by omega), hparts]

theorem length_le_storedBlocks (more : Nat) (data : List UInt8) :
    data.length ≤ (storedBlocks more data).length := by
  induction more generalizing data with
  | zero => simp [storedBlocks, storedBlock, Nat.add_assoc]
  | succ more ih =>
    rw [storedBlocks]
    split
    · simp [storedBlock, Nat.add_assoc]
    · have hrest := ih (data.drop storedLimit)
      simp only [List.length_append, storedBlock, List.length_cons, List.length_take,
        List.length_drop] at hrest ⊢
      omega

theorem inflate_store (data : List UInt8) : inflate (store data ++ tail) = .ok (data, tail) := by
  have hdata : data.length ≤ (data.length / storedLimit + 1) * storedLimit := by
    have hlt := Nat.lt_succ_self (data.length / storedLimit)
    exact Nat.le_of_lt ((Nat.div_lt_iff_lt_mul (by decide)).mp hlt)
  have hsteps : data.length / storedLimit < (BitSource.ofBytes (store data ++ tail)).size + 1 := by
    have hlength := length_le_storedBlocks (data.length / storedLimit) data
    have hdiv := Nat.div_le_self data.length storedLimit
    simp only [BitSource.size, BitSource.ofBytes, store, List.length_append, List.length_nil]
    omega
  rw [inflate]
  refine (congrArg (· >>= _) (expandBlocks_storedBlocks tail hdata hsteps #[])).trans ?_
  simp

end Stored

/-- A block with the fixed code expands to the data, and takes all bytes. -/
theorem inflate_compressFixed (data : List UInt8) :
    inflate (compressFixed data) = .ok (data, []) := by
  obtain ⟨ps, hps, hunpacks⟩ : Completes data.toArray 0 #[]
      (pieces data.toArray data.length 0 ∅ #[]) := completes_pieces (by simp) (by simp)
  rw [Array.extract_zero] at hunpacks
  -- The first three bits say that the block is the last and has the fixed code.
  obtain ⟨k, hk, hpack⟩ := exists_flatMap_pack
    (bitsOf 3 3 ++ (ps.flatMap pieceBits ++ fixedBits endMark))
  have hstream : (BitSource.ofBytes (compressFixed data)).stream =
      bitsOf 3 3 ++ (ps.flatMap pieceBits ++ (fixedBits endMark ++ List.replicate k false)) := by
    simpa [compressFixed, hps, bitsOf] using hpack
  obtain ⟨s₁, hheader, hs₁⟩ := takeBits_of_stream (by decide) hstream
  have hsteps : ps.length < s₁.size + 1 := by
    have hlength := length_le_flatMap ps
    rw [← BitSource.length_stream, hs₁, List.length_append]
    omega
  obtain ⟨codes, hcodes, hfixed⟩ := exists_fixedCodes
  obtain ⟨s₂, hsymbols, hs₂⟩ := expandSymbols_of_stream hfixed hunpacks hsteps hs₁
  have hblock : expandBlock 1 true #[] s₁ = .ok (data.toArray, s₂) := by
    rw [expandBlock, hcodes, ok_bind, hsymbols]
  have hbytes : s₂.bytes = [] := BitSource.bytes_eq_nil (by simpa [hs₂] using hk)
  simp [inflate, expandBlocks_succ, hheader, hblock, hbytes]

/-- Compressed data expands to the data, whatever follows it. -/
theorem inflate_deflate (data tail : List UInt8) :
    inflate (deflate data ++ tail) = .ok (data, tail) := by
  unfold deflate
  dsimp only
  split
  · exact inflate_append tail (inflate_compressFixed data)
  · exact inflate_store tail data

theorem sumsOf_lt (bytes : List UInt8) :
    (sumsOf bytes).1 < sumModulus ∧ (sumsOf bytes).2 < sumModulus := by
  refine List.foldlRecOn
    (motive := fun sums : Nat × Nat => sums.1 < sumModulus ∧ sums.2 < sumModulus)
    bytes _ (by decide) ?_
  intro sums _ b _
  exact ⟨Nat.mod_lt _ (by decide), Nat.mod_lt _ (by decide)⟩

theorem sumCheck_lt (bytes : List UInt8) : sumCheck bytes < 256 ^ 4 := by
  obtain ⟨hlow, hhigh⟩ := sumsOf_lt bytes
  simp only [sumCheck, sumModulus] at hlow hhigh ⊢
  omega

/-- A stream expands to the data that it was made from. -/
theorem ofStream_toStream (data : List UInt8) : ofStream (toStream data) = .ok data := by
  have hcheck : Bytes.ofWord .big (Bytes.word .big 4 (sumCheck data)) = sumCheck data := by
    rw [Bytes.ofWord_word, Nat.mod_eq_of_lt (sumCheck_lt data)]
  have hstream : toStream data =
      0x78 :: 0x9c :: (deflate data ++ Bytes.word .big 4 (sumCheck data)) := by
    simp [toStream, streamHeader]
  have hfour : (Bytes.word .big 4 (sumCheck data)).take 4 = Bytes.word .big 4 (sumCheck data) :=
    List.take_of_length_le (Nat.le_of_eq (Bytes.length_word _ _ _))
  have hheader : isHeader 0x78 0x9c = true := by decide
  have hdictionary : wantsDictionary 0x9c = false := by decide
  rw [hstream, ofStream]
  simp [hheader, hdictionary, afterDictionary, inflate_deflate, hfour,
    Bytes.length_word, hcheck]

end Savefile.Deflate
