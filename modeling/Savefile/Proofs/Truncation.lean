import Savefile.Proofs.Depth

/-!
# Shortened and changed input

A record that was read depends on its own bytes only, and every part of it that is too short is
reported as such, at the value that is cut. A failing expression depends only on the bytes before it.
-/
namespace Savefile

namespace Codec

open Reader

/-- Bytes that agree up to the end of what was read are those that were read and something more. -/
theorem exists_eq_append {b rest data : List UInt8}
    (h : data.take b.length = (b ++ rest).take b.length) : ∃ t, data = b ++ t := by
  rw [List.take_left] at h
  refine ⟨data.drop b.length, ?_⟩
  rw [← h, List.length_take, Nat.min_def]
  split
  · exact (List.take_append_drop _ _).symm
  · rw [List.take_of_length_le (by omega)]
    simp

variable {c : Codec} {data : List UInt8} {r : Record} {n : Nat}

/-- The bytes of a record that was read decide it, whatever follows; a part of them is too short. -/
theorem exists_consumed (hl : c.schema.Linked) (h : c.decodePrefix data = .ok (r, n)) :
    ∃ b rest, data = b ++ rest ∧ b.length = n ∧
      (∀ t, c.decodePrefix (b ++ t) = .ok (r, n)) ∧
      ∀ b' b'', b = b' ++ b'' → b'' ≠ [] →
        ∃ e, c.decodePrefix b' = .error (.error e) ∧ EndsAt b'.length e := by
  obtain ⟨d, s', hd, rfl⟩ := done_of_decodePrefix h
  obtain ⟨b, hpast, hsame, hcut⟩ :=
    (c.local_decodeRecord d _ none (.ofBytes data) rfl).done r s' hd
  have hoffset : s'.offset = b.length := hpast.offset.trans (Nat.zero_add _)
  refine ⟨b, s'.rest, hpast.rest, hoffset.symm, ?_, ?_⟩
  · intro t
    have ht := decodePrefix_of_done hl (hsame t)
    exact ht
  · intro b' b'' hb hne
    obtain ⟨e, s₁, he, hends⟩ := hcut b' b'' hb hne
    have hzero : (Source.ofBytes data).offset + b'.length = b'.length := Nat.zero_add _
    rw [hzero] at hends
    exact ⟨e, decodePrefix_of_failed hl (by simp) he, hends⟩

theorem decodePrefix_of_take_eq (hl : c.schema.Linked) (h : c.decodePrefix data = .ok (r, n))
    {data' : List UInt8} (hdata : data'.take n = data.take n) :
    c.decodePrefix data' = .ok (r, n) := by
  obtain ⟨b, rest, rfl, rfl, hsame, -⟩ := exists_consumed hl h
  obtain ⟨t, rfl⟩ := exists_eq_append hdata
  exact hsame t

theorem decodePrefix_take (hl : c.schema.Linked) (h : c.decodePrefix data = .ok (r, n)) {m : Nat}
    (hm : m < n) : ∃ e, c.decodePrefix (data.take m) = .error (.error e) ∧ EndsAt m e := by
  obtain ⟨b, rest, rfl, rfl, -, hcut⟩ := exists_consumed hl h
  have hne : b.drop m ≠ [] := by
    intro hnil
    have hlen := List.drop_eq_nil_iff.mp hnil
    omega
  have hlen : (b.take m).length = m := by
    rw [List.length_take]
    omega
  obtain ⟨e, he, hends⟩ := hcut (b.take m) (b.drop m) (List.take_append_drop m b).symm hne
  rw [hlen] at hends
  rw [List.take_append_of_le_length (Nat.le_of_lt hm)]
  exact ⟨e, he, hends⟩

/-- The bytes before a failing expression decide the failure. -/
theorem exists_before_expression (hl : c.schema.Linked) {e : DecodeError}
    (h : c.decodePrefix data = .error (.error e)) (hkind : e.kind = .expression) :
    ∃ b rest, data = b ++ rest ∧ e.offset = b.length ∧
      ∀ t, c.decodePrefix (b ++ t) = .error (.error e) := by
  obtain ⟨d, s', hd⟩ := failed_of_decodePrefix h
  have hnot : ¬DecodeStop.isTruncated (.error e) := by
    intro ht
    rw [DecodeStop.isTruncated, hkind] at ht
    cases ht
  obtain ⟨b, hpast, hsame, hoff⟩ :=
    (c.local_decodeRecord d _ none (.ofBytes data) rfl).failed _ s' hd hnot
  refine ⟨b, s'.rest, hpast.rest, ?_, ?_⟩
  · rw [hoff e rfl, hpast.position rfl]
    exact Int.zero_add _
  · intro t
    exact decodePrefix_of_failed hl (by simp) (hsame t)

/-- A reading depends only on the bytes it consumes. (a) What was read is read from the same bytes
whatever follows them. (b) Fewer bytes are reported as truncated, at an offset that is not past
their end and with a cause that tells whether it is their end. (c) What is reported of a failing
expression is reported whatever follows the offset. -/
theorem decodePrefix_depends_on_consumed {s : Schema} {options : CodecOptions} {c : Codec}
    (hs : s.Accepted) (hc : compile (some s) options = .ok c) (data : List UInt8) :
    (∀ r n, c.decodePrefix data = .ok (r, n) →
      n ≤ data.length ∧
      (∀ data', data'.take n = data.take n → c.decodePrefix data' = .ok (r, n)) ∧
      ∀ m < n, ∃ e, c.decodePrefix (data.take m) = .error (.error e) ∧ EndsAt m e) ∧
    ∀ e, c.decodePrefix data = .error (.error e) → e.kind = .expression →
      ∃ o : Nat, e.offset = o ∧ o ≤ data.length ∧
        ∀ data', data'.take o = data.take o → c.decodePrefix data' = .error (.error e) := by
  have hl := linked_of_compile hs hc
  constructor
  · intro r n h
    refine ⟨?_, fun data' => decodePrefix_of_take_eq hl h, fun m => decodePrefix_take hl h⟩
    obtain ⟨b, rest, rfl, rfl, -⟩ := exists_consumed hl h
    rw [List.length_append]
    omega
  · intro e h hkind
    obtain ⟨b, rest, rfl, hoffset, hsame⟩ := exists_before_expression hl h hkind
    refine ⟨b.length, hoffset, ?_, ?_⟩
    · rw [List.length_append]
      omega
    · intro data' hdata
      obtain ⟨t, rfl⟩ := exists_eq_append hdata
      exact hsame t

theorem decodePrefix_depends_on_consumed_quotient :
    ∃ s c, Schema.parse ("items:\n- id: a\n  type: u16\n- id: b\n  type: u8\n" ++
        "  if: 6 / a > 1").toUTF8.toList = .ok s ∧
      compile (some s) .strict = .ok c ∧
      (∃ r, c.decodePrefix [2, 0, 9, 5] = .ok (r, 3) ∧ c.decodePrefix [2, 0, 9, 7, 7] = .ok (r, 3) ∧
        ∃ e, c.decodePrefix [2] = .error (.error e) ∧ EndsAt 1 e) ∧
      ∃ e, c.decodePrefix [0, 0, 9] = .error (.error e) ∧ e.kind = .expression ∧
        c.decodePrefix [0, 0, 5, 5] = .error (.error e) := by
  refine exists_of_parse (fun c => (c.decodePrefix [2, 0, 9, 5]).toOption.bind fun rn =>
    (failure? (c.decodePrefix [0, 0, 9])).map fun e => (rn.2, e.kind, e.offset))
    (3, .expression, 2) (by decide +kernel) ?_
  intro s c hs hc h
  obtain ⟨⟨r, n⟩, hr, h⟩ := Option.bind_eq_some_iff.mp h
  obtain ⟨e, he, h⟩ := Option.map_eq_some_iff.mp h
  simp only [Prod.mk.injEq] at h
  obtain ⟨rfl, hkind, hoffset⟩ := h
  have hr := eq_ok_of_toOption hr
  have he := eq_error_of_failure? he
  obtain ⟨hdone, -⟩ := decodePrefix_depends_on_consumed (.of_parse hs) hc [2, 0, 9, 5]
  obtain ⟨-, hfailed⟩ := decodePrefix_depends_on_consumed (.of_parse hs) hc [0, 0, 9]
  obtain ⟨-, hsame, hcut⟩ := hdone r 3 hr
  obtain ⟨o, ho, -, hsame'⟩ := hfailed e he hkind
  obtain rfl : o = 2 := by omega
  exact ⟨⟨r, hr, hsame _ rfl, hcut 1 (by decide)⟩, e, he, hkind, hsame' _ rfl⟩

end Codec

end Savefile
