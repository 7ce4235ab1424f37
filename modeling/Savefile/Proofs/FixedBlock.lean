import Mathlib.Algebra.Group.Nat.Defs
import Mathlib.Data.List.Chain
import Savefile.Deflate.Deflate
import Savefile.Deflate.Inflate
import Savefile.Proofs.Result

/-!
# Blocks with the fixed code

Reading a source is described by the bits that are left in it, whether they stand in a byte begun or
in the bytes behind. Where the bits of a number, of a symbol or of a whole part of compressed data
come first, they are read back and what follows them is left. The parts that data is taken apart into
give the data again, as a copy only repeats bytes that were compared. So the symbols of a block with
the fixed code expand to the data.
-/
namespace Savefile.Deflate

section Bits

theorem bitsOf_eq_map (width n : Nat) : bitsOf width n = (List.range width).map n.testBit := by
  induction width generalizing n with
  | zero => rfl
  | succ width ih =>
    rw [bitsOf, ih, List.range_succ_eq_map, List.map_cons, List.map_map]
    congr 1
    · simp [Nat.testBit_zero]
      grind
    · simp [Function.comp_def, Nat.testBit_succ]

theorem byteBits_eq (b : UInt8) : byteBits b = bitsOf 8 b.toNat := (bitsOf_eq_map 8 b.toNat).symm

@[simp] theorem length_bitsOf (width n : Nat) : (bitsOf width n).length = width := by
  simp [bitsOf_eq_map]

theorem ofBits_bitsOf {width n : Nat} (h : n < 2 ^ width) : ofBits (bitsOf width n) = n := by
  induction width generalizing n with
  | zero => simp_all [bitsOf, ofBits]
  | succ width ih =>
    have hhalf : n / 2 < 2 ^ width := by omega
    rw [bitsOf, ofBits, ih hhalf]
    grind

theorem bitsOf_zero (width : Nat) : bitsOf width 0 = List.replicate width false := by
  induction width with
  | zero => rfl
  | succ width ih =>
    rw [bitsOf, ih]
    rfl

/-- A number has its bits and zeros behind them. -/
theorem bitsOf_ofBits {width : Nat} {bits : List Bool} (h : bits.length ≤ width) :
    bitsOf width (ofBits bits) = bits ++ List.replicate (width - bits.length) false := by
  induction bits generalizing width with
  | nil => exact bitsOf_zero width
  | cons b bits ih =>
    obtain ⟨width, rfl⟩ : ∃ w, width = w + 1 := ⟨width - 1, by grind⟩
    have hrest := @ih width (by simpa using h)
    cases b <;> simp [bitsOf, ofBits, hrest, Nat.add_mul_div_left, Nat.add_mod]

theorem ofBits_lt (bits : List Bool) : ofBits bits < 2 ^ bits.length := by
  induction bits with
  | nil => simp [ofBits]
  | cons b bits ih =>
    rw [ofBits, List.length_cons]
    split <;> omega

theorem byteBits_ofBits {bits : List Bool} (h : bits.length ≤ 8) :
    byteBits (ofBits bits).toUInt8 = bits ++ List.replicate (8 - bits.length) false := by
  have hlt : ofBits bits < 256 :=
    Nat.lt_of_lt_of_le (ofBits_lt bits) (Nat.pow_le_pow_right (n := 2) (by decide) h)
  have htoNat : (ofBits bits).toUInt8.toNat = ofBits bits := by
    simpa using Nat.mod_eq_of_lt hlt
  rw [byteBits_eq, htoNat, bitsOf_ofBits h]

/-- The bits of the packed bytes are those that were packed, and fewer than eight zeros. -/
theorem exists_flatMap_pack (bits : List Bool) :
    ∃ k < 8, (pack bits).flatMap byteBits = bits ++ List.replicate k false := by
  fun_induction pack bits with
  | case1 b₀ b₁ b₂ b₃ b₄ b₅ b₆ b₇ rest ih =>
    obtain ⟨k, hk, hrest⟩ := ih
    have hbyte := @byteBits_ofBits [b₀, b₁, b₂, b₃, b₄, b₅, b₆, b₇] (by simp)
    exact ⟨k, hk, by simp [hbyte, hrest]⟩
  | case2 => exact ⟨0, by decide, rfl⟩
  | case3 few hlong hnil =>
    have hlength : few.length < 8 := by
      rcases few with
        _ | ⟨b₀, _ | ⟨b₁, _ | ⟨b₂, _ | ⟨b₃, _ | ⟨b₄, _ | ⟨b₅, _ | ⟨b₆, _ | ⟨b₇, rest⟩⟩⟩⟩⟩⟩⟩⟩
      case cons.cons.cons.cons.cons.cons.cons.cons => exact (hlong _ _ _ _ _ _ _ _ _ rfl).elim
      all_goals simp
    refine ⟨8 - few.length, ?_, ?_⟩
    · have := List.length_pos_iff.mpr hnil
      omega
    · simpa using byteBits_ofBits (Nat.le_of_lt hlength)

end Bits

namespace BitSource

/-- The bits that are left. -/
def stream (s : BitSource) : List Bool := s.bits ++ s.bytes.flatMap byteBits

theorem length_stream (s : BitSource) : s.stream.length = s.size := by
  simp [stream, size, List.length_flatMap, byteBits_eq, List.map_const', Nat.mul_comm]

@[simp] theorem stream_ofBytes (bytes : List UInt8) :
    (ofBytes bytes).stream = bytes.flatMap byteBits := rfl

/-- Where fewer than eight bits are left, there is no byte behind them. -/
theorem bytes_eq_nil {s : BitSource} (h : s.stream.length < 8) : s.bytes = [] := by
  rw [length_stream, size] at h
  exact List.eq_nil_of_length_eq_zero (by omega)

variable {s : BitSource} {rest : List Bool}

theorem next?_of_stream {b : Bool} (h : s.stream = b :: rest) :
    ∃ s', s.next? = some (b, s') ∧ s'.stream = rest := by
  obtain ⟨bits, bytes⟩ := s
  cases bits with
  | cons b' bits =>
    obtain ⟨rfl, hrest⟩ := List.cons.inj h
    exact ⟨_, rfl, hrest⟩
  | nil =>
    cases bytes with
    | nil => cases h
    | cons byte bytes =>
      obtain ⟨rfl, hrest⟩ := List.cons.inj h
      exact ⟨_, rfl, hrest⟩

theorem take?_of_stream {bits : List Bool} (h : s.stream = bits ++ rest) :
    ∃ s', s.take? bits.length = some (ofBits bits, s') ∧ s'.stream = rest := by
  induction bits generalizing s with
  | nil => exact ⟨s, rfl, h⟩
  | cons b bits ih =>
    obtain ⟨s₁, hnext, hs₁⟩ := next?_of_stream h
    obtain ⟨s₂, htake, hs₂⟩ := ih hs₁
    exact ⟨s₂, by rw [List.length_cons, take?, hnext]; simp only [htake]; rfl, hs₂⟩

end BitSource

section Reading

variable {s : BitSource} {rest : List Bool}

theorem takeBits_of_stream {width n : Nat} (hn : n < 2 ^ width)
    (h : s.stream = bitsOf width n ++ rest) :
    ∃ s', takeBits width s = .ok (n, s') ∧ s'.stream = rest := by
  obtain ⟨s', htake, hs'⟩ := BitSource.take?_of_stream h
  rw [length_bitsOf, ofBits_bitsOf hn] at htake
  exact ⟨s', by rw [takeBits, htake], hs'⟩

/-- The symbol that has the given bits. -/
def Code.at? : Code → List Bool → Option Nat
  | .symbol n, [] => some n
  | .choice zero one, bit :: bits => if bit then one.at? bits else zero.at? bits
  | _, _ => none

theorem Code.take_of_stream {code : Code} {bits : List Bool} {sym : Nat}
    (hsym : code.at? bits = some sym) (h : s.stream = bits ++ rest) :
    ∃ s', code.take s = .ok (sym, s') ∧ s'.stream = rest := by
  fun_induction Code.at? code bits generalizing s with
  | case1 n =>
    cases hsym
    exact ⟨s, rfl, h⟩
  | case2 zero one bits ih =>
    obtain ⟨s₁, hnext, hs₁⟩ := BitSource.next?_of_stream h
    obtain ⟨s₂, htake, hs₂⟩ := ih hsym hs₁
    exact ⟨s₂, by rw [Code.take, hnext]; exact htake, hs₂⟩
  | case3 zero one bit bits hbit ih =>
    obtain rfl : bit = false := by simpa using hbit
    obtain ⟨s₁, hnext, hs₁⟩ := BitSource.next?_of_stream h
    obtain ⟨s₂, htake, hs₂⟩ := ih hsym hs₁
    exact ⟨s₂, by rw [Code.take, hnext]; exact htake, hs₂⟩
  | case4 => cases hsym

end Reading

section Ranges

/-- A number stands in a range: the one at a place, with its first number and its further bits. -/
structure Stands (ranges : List (Nat × Nat)) (n : Nat) (range : Nat × Nat × Nat) : Prop where
  place : ranges[range.1]? = some range.2
  first_le : range.2.1 ≤ n
  lt : n < range.2.1 + 2 ^ range.2.2

theorem Stands.place_lt {ranges : List (Nat × Nat)} {n : Nat} {range : Nat × Nat × Nat}
    (h : Stands ranges n range) : range.1 < ranges.length :=
  (List.getElem?_eq_some_iff.mp h.place).1

/-- Ranges that leave no gap before the start of the next. -/
def Meets (a b : Nat × Nat) : Prop := b.1 ≤ a.1 + 2 ^ a.2

instance (a b : Nat × Nat) : Decidable (Meets a b) := inferInstanceAs (Decidable (_ ≤ _))

/-- The last range that starts no later than a number has it, if no two have a gap between them and
the number comes before an end that the last one meets. -/
theorem stands_rangeOf {ranges : List (Nat × Nat)} {n stop i : Nat} {found : Nat × Nat × Nat}
    (hn : n < stop) (hplace : ranges[found.1]? = some found.2) (hfirst : found.2.1 ≤ n)
    (hmeets : (found.2 :: (ranges.drop i ++ [(stop, 0)])).IsChain Meets) :
    Stands ranges n (rangeOf n i found (ranges.drop i)) := by
  generalize hrest : ranges.drop i = rest at hmeets ⊢
  fun_induction rangeOf n i found rest with
  | case1 i found =>
    have hlast : stop ≤ found.2.1 + 2 ^ found.2.2 := by simpa [Meets] using hmeets
    exact ⟨hplace, hfirst, by omega⟩
  | case2 i found first width rest hle ih =>
    have hplace' : ranges[i]? = some (first, width) := by rw [← List.head?_drop, hrest]; rfl
    have hrest' : ranges.drop (i + 1) = rest := by rw [← List.tail_drop, hrest]; rfl
    simp only [List.cons_append, List.isChain_cons_cons] at hmeets
    exact ih hplace' hle hrest' hmeets.2
  | case3 i found first width rest hle =>
    simp only [List.cons_append, List.isChain_cons_cons] at hmeets
    have hnext : first ≤ found.2.1 + 2 ^ found.2.2 := hmeets.1
    exact ⟨hplace, hfirst, by omega⟩

theorem stands_length {n : Nat} (hleast : 3 ≤ n) (hmost : n ≤ copyLimit) :
    Stands lengthRanges n (rangeOf n 0 (0, 3, 0) lengthRanges) :=
  stands_rangeOf (i := 0) (Nat.lt_succ_of_le hmost) rfl hleast (by decide)

theorem stands_distance {n : Nat} (hleast : 0 < n) (hmost : n ≤ distanceReach) :
    Stands distanceRanges n (rangeOf n 0 (0, 1, 0) distanceRanges) :=
  stands_rangeOf (i := 0) (Nat.lt_succ_of_le hmost) rfl hleast (by decide)

theorem takeRanged_of_stream {ranges : List (Nat × Nat)} {n : Nat} {range : Nat × Nat × Nat}
    (hn : Stands ranges n range) {s : BitSource} {rest : List Bool}
    (h : s.stream = bitsOf range.2.2 (n - range.2.1) ++ rest) :
    ∃ s', takeRanged ranges range.1 s = .ok (n, s') ∧ s'.stream = rest := by
  have hlt := hn.lt
  have hsum := Nat.add_sub_cancel' hn.first_le
  obtain ⟨s', htake, hs'⟩ := takeBits_of_stream (by omega) h
  exact ⟨s', by simp [takeRanged, hn.place, htake, hsum], hs'⟩

end Ranges

/-- Codes that read the bits which the compressed parts have. -/
structure BlockCodes.ReadsFixed (codes : BlockCodes) : Prop where
  least : codes.least = 0
  symbols : ∀ sym < 288, codes.symbols.at? (fixedBits sym) = some sym
  distances : ∀ j < 32, codes.distances.at? (bitsOf 5 j).reverse = some j

instance (codes : BlockCodes) : Decidable codes.ReadsFixed :=
  decidable_of_iff
    (codes.least = 0 ∧ (∀ sym < 288, codes.symbols.at? (fixedBits sym) = some sym) ∧
      ∀ j < 32, codes.distances.at? (bitsOf 5 j).reverse = some j)
    ⟨fun ⟨hleast, hsymbols, hdistances⟩ => ⟨hleast, hsymbols, hdistances⟩,
      fun h => ⟨h.least, h.symbols, h.distances⟩⟩

theorem exists_fixedCodes : ∃ codes, fixedCodes = .ok codes ∧ codes.ReadsFixed := by
  have hany : fixedCodes.toOption.any (fun codes => decide codes.ReadsFixed) = true := by
    decide +kernel
  cases hcodes : fixedCodes with
  | error e => simp [hcodes, Except.toOption] at hany
  | ok codes => exact ⟨codes, rfl, by simpa [hcodes, Except.toOption] using hany⟩

section Pieces

/-- Parts that give the data if they are added to what is there already. Copies are as long and as
far back as can be written, and reach no farther than the beginning. -/
inductive Unpacks (data : Array UInt8) : Array UInt8 → List Piece → Prop
  | nil : Unpacks data data []
  | byte {out : Array UInt8} {b : UInt8} {ps : List Piece} :
      Unpacks data (out.push b) ps → Unpacks data out (.byte b :: ps)
  | copy {out : Array UInt8} {length distance : Nat} {ps : List Piece} :
      3 ≤ length → length ≤ copyLimit → 0 < distance → distance ≤ distanceReach →
      distance ≤ out.size → Unpacks data (copyBack distance length out) ps →
      Unpacks data out (.copy length distance :: ps)

variable {data : Array UInt8}

/-- The symbols of the parts, up to the end mark, expand to the data. -/
theorem expandSymbols_of_stream {codes : BlockCodes} (hcodes : codes.ReadsFixed)
    {out : Array UInt8} {ps : List Piece} (hps : Unpacks data out ps) {steps : Nat}
    (hsteps : ps.length < steps) {s : BitSource} {rest : List Bool}
    (h : s.stream = ps.flatMap pieceBits ++ (fixedBits endMark ++ rest)) :
    ∃ s', expandSymbols codes steps out s = .ok (data, s') ∧ s'.stream = rest := by
  induction hps generalizing s steps with
  | nil =>
    obtain ⟨steps, rfl⟩ : ∃ n, steps = n + 1 := ⟨steps - 1, by omega⟩
    obtain ⟨s₁, hsym, hs₁⟩ := Code.take_of_stream (hcodes.symbols endMark (by decide)) h
    exact ⟨s₁, by simp [expandSymbols, BitSource.holds, hcodes.least, hsym], hs₁⟩
  | @byte out b ps hps ih =>
    obtain ⟨steps, rfl⟩ : ∃ n, steps = n + 1 := ⟨steps - 1, by omega⟩
    have hlt := b.toNat_lt
    rw [List.flatMap_cons, List.append_assoc] at h
    obtain ⟨s₁, hsym, hs₁⟩ := Code.take_of_stream (hcodes.symbols b.toNat (by omega)) h
    obtain ⟨s', hrest, hs'⟩ := ih (by simpa using hsteps) hs₁
    exact ⟨s', by simp [expandSymbols, BitSource.holds, hcodes.least, hsym, endMark, hlt, hrest],
      hs'⟩
  | @copy out length distance ps hlength hlimit hdistance hreach hsize hps ih =>
    obtain ⟨steps, rfl⟩ : ∃ n, steps = n + 1 := ⟨steps - 1, by omega⟩
    have hrange := stands_length hlength hlimit
    have hrange' := stands_distance hdistance hreach
    simp only [List.flatMap_cons, pieceBits, List.append_assoc] at h
    generalize rangeOf length 0 (0, 3, 0) lengthRanges = range at hrange h
    generalize rangeOf distance 0 (0, 1, 0) distanceRanges = range' at hrange' h
    have hplace : range.1 < 29 := hrange.place_lt
    have hplace' : range'.1 < 30 := hrange'.place_lt
    have hsymLt : endMark + 1 + range.1 < 288 := by rw [endMark]; omega
    obtain ⟨s₁, hsym, hs₁⟩ := Code.take_of_stream (hcodes.symbols _ hsymLt) h
    obtain ⟨s₂, htaken, hs₂⟩ := takeRanged_of_stream hrange hs₁
    obtain ⟨s₃, hsym', hs₃⟩ := Code.take_of_stream (hcodes.distances _ (by omega)) hs₂
    obtain ⟨s₄, htaken', hs₄⟩ := takeRanged_of_stream hrange' hs₃
    obtain ⟨s', hrest, hs'⟩ := ih (by simpa using hsteps) hs₄
    refine ⟨s', ?_, hs'⟩
    have hbyte : ¬endMark + 1 + range.1 < endMark := by omega
    have hend : endMark + 1 + range.1 ≠ endMark := by omega
    simp [expandSymbols, BitSource.holds, hcodes.least, hsym, hbyte, hend, htaken, hsym', htaken',
      Nat.not_lt_of_le hsize, hrest]

theorem extract_push {i : Nat} {b : UInt8} (h : data[i]? = some b) :
    (data.extract 0 i).push b = data.extract 0 (i + 1) := by
  obtain ⟨hi, rfl⟩ := Array.getElem?_eq_some_iff.mp h
  simp [Array.push_extract_getElem hi]

theorem commonLength_le (i j limit : Nat) : commonLength data i j limit ≤ limit := by
  fun_induction commonLength data i j limit <;> omega

/-- Bytes that are equal to those at an earlier place are a copy of them. -/
theorem copyBack_commonLength {i j limit : Nat} (hj : j < i) (hi : i ≤ data.size) :
    copyBack (i - j) (commonLength data i j limit) (data.extract 0 i) =
      data.extract 0 (i + commonLength data i j limit) := by
  fun_induction commonLength data i j limit with
  | case1 i j => rfl
  | case2 i j limit a b ha hb hab ih =>
    obtain rfl : a = b := by simpa using hab
    have hsize : i < data.size := (Array.getElem?_eq_some_iff.mp hb).1
    have hback : (data.extract 0 i)[(data.extract 0 i).size - (i - j)]?.getD 0 = a := by
      grind
    have hrest := ih (by omega) hsize
    rw [Nat.add_sub_add_right] at hrest
    rw [copyBack, hback, extract_push hb, hrest]
    congr 1
    omega
  | case3 => rfl
  | case4 => rfl

/-- Parts that begin with those found, of which the rest gives the data if added to what comes before
a place. -/
def Completes (data : Array UInt8) (i : Nat) (found all : Array Piece) : Prop :=
  ∃ ps, all.toList = found.toList ++ ps ∧ Unpacks data (data.extract 0 i) ps

theorem Completes.refl {i : Nat} {found : Array Piece} (h : data.size ≤ i) :
    Completes data i found found := by
  have hall : data.extract 0 i = data := by simp [Array.extract_eq_self_iff, h]
  refine ⟨[], by simp, ?_⟩
  rw [hall]
  exact .nil

theorem Completes.byte {i : Nat} {b : UInt8} {found all : Array Piece} (hb : data[i]? = some b)
    (h : Completes data (i + 1) (found.push (.byte b)) all) : Completes data i found all := by
  obtain ⟨ps, hps, hunpacks⟩ := h
  refine ⟨.byte b :: ps, by simp [hps], .byte ?_⟩
  rwa [extract_push hb]

theorem Completes.copy {i j : Nat} {found all : Array Piece} (hj : j < i) (hi : i ≤ data.size)
    (hlength : 3 ≤ commonLength data i j copyLimit) (hreach : i - j ≤ distanceReach)
    (h : Completes data (i + commonLength data i j copyLimit)
      (found.push (.copy (commonLength data i j copyLimit) (i - j))) all) :
    Completes data i found all := by
  obtain ⟨ps, hps, hunpacks⟩ := h
  refine ⟨.copy (commonLength data i j copyLimit) (i - j) :: ps, by simp [hps], ?_⟩
  refine .copy hlength (commonLength_le i j copyLimit) (by omega) hreach ?_ ?_
  · rw [Array.size_extract]
    omega
  · rwa [copyBack_commonLength hj hi]

/-- A place that is remembered as well leaves all of them before a later one. -/
theorem lt_of_insert {places : Std.HashMap Nat Nat} {i i' : Nat} (hlt : i < i')
    (h : ∀ (key j : Nat), places[key]? = some j → j < i) (key : Nat) :
    ∀ (key' j : Nat), (places.insert key i)[key']? = some j → j < i' := by
  intro key' j hj
  rw [Std.HashMap.getElem?_insert] at hj
  split at hj
  · cases hj
    exact hlt
  · exact (h key' j hj).trans hlt

/-- The parts that are found from a place on give the data, as long as the places that are remembered
are earlier ones. -/
theorem completes_pieces {steps i : Nat} {places : Std.HashMap Nat Nat} {found : Array Piece}
    (hsteps : data.size ≤ i + steps) (hplaces : ∀ (key j : Nat), places[key]? = some j → j < i) :
    Completes data i found (pieces data steps i places found) := by
  fun_induction pieces data steps i places found with
  | case1 i places found => exact .refl hsteps
  | case2 steps i places found hnone => exact .refl (Array.getElem?_eq_none_iff.mp hnone)
  | case3 steps i places found b hb hthree ih =>
    exact .byte hb (ih (by omega) fun key j hj => Nat.lt_succ_of_lt (hplaces key j hj))
  | case4 steps i places found b hb key hthree known places' hknown ih =>
    exact .byte hb (ih (by omega) (lt_of_insert (Nat.lt_succ_self i) hplaces key))
  | case5 steps i places found b hb key hthree known places' j hknown length hlength ih =>
    have hi : i < data.size := (Array.getElem?_eq_some_iff.mp hb).1
    exact .copy (hplaces key j hknown) (Nat.le_of_lt hi) hlength.1 hlength.2
      (ih (by omega) (lt_of_insert (by omega) hplaces key))
  | case6 steps i places found b hb key hthree known places' j hknown length hlength ih =>
    exact .byte hb (ih (by omega) (lt_of_insert (Nat.lt_succ_self i) hplaces key))

theorem length_pieceBits_pos (p : Piece) : 0 < (pieceBits p).length := by
  have hfixed : ∀ sym, 0 < (fixedBits sym).length := by
    intro sym
    unfold fixedBits
    split_ifs <;> simp
  cases p with
  | byte b => exact hfixed _
  | copy length distance =>
    have := hfixed (endMark + 1 + (rangeOf length 0 (0, 3, 0) lengthRanges).1)
    simp only [pieceBits, List.length_append]
    omega

theorem length_le_flatMap (ps : List Piece) : ps.length ≤ (ps.flatMap pieceBits).length := by
  induction ps with
  | nil => exact Nat.zero_le _
  | cons p ps ih =>
    have := length_pieceBits_pos p
    simp only [List.length_cons, List.flatMap_cons, List.length_append]
    omega

end Pieces

end Savefile.Deflate
