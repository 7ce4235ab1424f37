import Savefile.Proofs.Locality
import Savefile.Proofs.Scalar
import Savefile.Proofs.Writing

/-!
# Scalars in sources and sinks

A scalar goes to a sink as one chunk of its width, and from a source as many bytes are taken. In
either byte order the one undoes the other: what was written is read again, and what was read is
written again, a true byte being written as one. A value of another kind is refused before anything
is written.
-/
namespace Savefile

namespace Scalar

/-- Of the bytes that can be read as a truth value only zero and one are written. -/
theorem encode_decode_bool (order : ByteOrder) {b : List UInt8} (h : b.length = 1) :
    (decode order .bool b).encode order = if b = [0] then [0] else [1] := by
  obtain ⟨n, rfl⟩ := List.length_eq_one_iff.mp h
  rw [decode_bool]
  by_cases hn : n = 0
  · subst hn
    cases order <;> rfl
  · have htrue : (n != 0) = true := bne_iff_ne.mpr hn
    rw [htrue, if_neg (by simpa using hn)]
    cases order <;> rfl

end Scalar

namespace Codec

variable (c : Codec) {p : Primitive}

theorem readScalar_append {s : Source} {b rest : List UInt8} (hb : b.length = p.width)
    (hs : s.rest = b ++ rest) :
    ∃ s', c.readScalar (.primitive p) s = .done (.scalar (.decode c.schema.order p b)) s' ∧
      s.Past s' b := by
  have htake := Source.take_append hs
  rw [hb] at htake
  refine ⟨{ s with rest := rest, offset := s.offset + p.width }, ?_, hs, ?_, rfl⟩
  · simp only [readScalar, htake]
  · rw [hb]

theorem writeScalar_scalar (sink : Sink) (x : Scalar) (out : Output) :
    c.writeScalar sink (.primitive x.kind) (.scalar x) out =
      (out.write sink (x.encode c.schema.order)).toEncoding true := by
  rw [writeScalar, deliver, if_pos rfl]

theorem writeScalar_memory (x : Scalar) (out : Output) :
    ∃ out', c.writeScalar .memory (.primitive x.kind) (.scalar x) out = .done () out' ∧
      out.Gains out' (x.encode c.schema.order) := by
  obtain ⟨out', hout', hgains⟩ := out.write_memory (x.encode c.schema.order)
  refine ⟨out', ?_, hgains⟩
  rw [writeScalar_scalar, hout', Delivery.toEncoding_done]

/-- A value that is no scalar of the kind is refused, and the output stays as it is. -/
theorem writeScalar_other {v : Value} (h : ∀ x : Scalar, x.kind = p → v ≠ .scalar x) (sink : Sink)
    (out : Output) :
    c.writeScalar sink (.primitive p) v out =
      .failed (.error ⟨.invalid, "", [], .misfit (.wrongScalar v (.primitive p))⟩) out := by
  cases v with
  | scalar x =>
    have hkind : TypeKind.primitive p ≠ .primitive x.kind := by
      intro hkind
      exact h x (TypeKind.primitive.inj hkind).symm rfl
    rw [writeScalar, deliver, if_neg hkind]
    rfl
  | null => rfl
  | list items => rfl
  | record t slots => rfl
  | foreign representation text => rfl

/-- Reading and writing scalars of a kind are inverse to each other, in the byte order of the codec. A
scalar is written as one chunk of the kind's width, and those bytes are read as the same scalar. Bytes
of that width are read as a scalar that is written as the same bytes, except that all true bytes are
written as one. And any other value is refused, with nothing written. -/
theorem scalars_transfer (c : Codec) (p : Primitive) :
    (∀ x : Scalar, x.kind = p → ∃ chunk, chunk.length = p.width ∧
      (∀ sink out, c.writeScalar sink (.primitive p) (.scalar x) out =
        (out.write sink chunk).toEncoding true) ∧
      (∀ out, ∃ out', c.writeScalar .memory (.primitive p) (.scalar x) out = .done () out' ∧
        out.Gains out' chunk) ∧
      ∀ s rest, s.rest = chunk ++ rest →
        ∃ s', c.readScalar (.primitive p) s = .done (.scalar x) s' ∧ s.Past s' chunk) ∧
    (∀ b : List UInt8, b.length = p.width → ∃ x : Scalar, x.kind = p ∧
      (∀ s rest, s.rest = b ++ rest →
        ∃ s', c.readScalar (.primitive p) s = .done (.scalar x) s' ∧ s.Past s' b) ∧
      ∀ out, ∃ out', c.writeScalar .memory (.primitive p) (.scalar x) out = .done () out' ∧
        out.Gains out' (if p = .bool then if b = [0] then [0] else [1] else b)) ∧
    ∀ v, (∀ x : Scalar, x.kind = p → v ≠ .scalar x) → ∀ sink out,
      c.writeScalar sink (.primitive p) v out =
        .failed (.error ⟨.invalid, "", [], .misfit (.wrongScalar v (.primitive p))⟩) out := by
  refine ⟨?_, ?_, fun v hv => c.writeScalar_other hv⟩
  · rintro x rfl
    refine ⟨x.encode c.schema.order, Scalar.length_encode _ x, fun sink => c.writeScalar_scalar sink x,
      c.writeScalar_memory x, ?_⟩
    intro s rest hs
    have hread := c.readScalar_append (Scalar.length_encode _ x) hs
    rwa [Scalar.decode_encode] at hread
  · intro b hb
    refine ⟨.decode c.schema.order p b, Scalar.kind_decode _ p b,
      fun s rest hs => c.readScalar_append hb hs, ?_⟩
    intro out
    have hwrite := c.writeScalar_memory (.decode c.schema.order p b) out
    have hbytes : (Scalar.decode c.schema.order p b).encode c.schema.order =
        if p = .bool then if b = [0] then [0] else [1] else b := by
      split
      · rename_i hp
        subst hp
        exact Scalar.encode_decode_bool _ hb
      · rename_i hp
        exact Scalar.encode_decode _ hp hb
    rwa [Scalar.kind_decode, hbytes] at hwrite

/-- In big endian a float that is not a number keeps its payload, the byte seven is written as one when
it is read as a truth value, and a signed number is refused where an unsigned one is wanted. -/
theorem scalars_transfer_big_endian :
    ∃ c : Codec, c.schema.order = .big ∧
      (∃ chunk, chunk.length = 4 ∧ ∀ s rest, s.rest = chunk ++ rest →
        ∃ s', c.readScalar (.primitive .f32) s = .done (.scalar (.f32 0x7fa00001)) s' ∧
          s.Past s' chunk) ∧
      (∃ x : Scalar, x.kind = .bool ∧
        (∀ s rest, s.rest = [7] ++ rest →
          ∃ s', c.readScalar (.primitive .bool) s = .done (.scalar x) s' ∧ s.Past s' [7]) ∧
        ∃ out, c.writeScalar .memory (.primitive .bool) (.scalar x) .empty = .done () out ∧
          Output.empty.Gains out [1]) ∧
      ∃ e, c.writeScalar .memory (.primitive .u64) (.scalar (.i64 5)) .empty = .failed e .empty := by
  let c : Codec := ⟨⟨.big, [], ⟨"root", []⟩⟩, .strict⟩
  obtain ⟨chunk, hwidth, -, -, hread⟩ := (scalars_transfer c .f32).1 (.f32 0x7fa00001) rfl
  obtain ⟨x, hkind, hreads, hwrites⟩ := (scalars_transfer c .bool).2.1 [7] rfl
  have hother : ∀ x : Scalar, x.kind = .u64 → (.scalar (.i64 5) : Value) ≠ .scalar x := by
    rintro x hx ⟨⟩
    cases hx
  have hrefused := (scalars_transfer c .u64).2.2 _ hother .memory .empty
  exact ⟨c, rfl, ⟨chunk, hwidth, hread⟩, ⟨x, hkind, hreads, hwrites .empty⟩, _, hrefused⟩

end Codec

end Savefile
