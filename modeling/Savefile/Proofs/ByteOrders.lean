import Savefile.Proofs.Sinks

/-!
# The two byte orders

A scalar goes to the sink in one chunk, and in the other byte order this chunk is reversed. Nothing
else depends on the byte order: neither which values are written, nor how wide they are, nor what is
refused. So in either order a record is written in the same chunks up to reversal, and if the sinks
do not tell a chunk from its reverse, both passes end alike.
-/
namespace Savefile

/-- Two outputs with the same notes, where the chunks of one are those of the other reversed. -/
structure Output.Mirrors (out out' : Output) : Prop where
  chunks : out'.chunks = out.chunks.map List.reverse
  count : out'.count = out.count
  notes : out'.notes = out.notes

namespace Output.Mirrors

variable {out out' : Output}

theorem empty : Output.empty.Mirrors .empty := ⟨rfl, rfl, rfl⟩

theorem note (h : out.Mirrors out') (note : Nat → Note) :
    (out.note (note out.count)).Mirrors (out'.note (note out'.count)) :=
  ⟨h.chunks, h.count, by simp only [Output.note, h.count, h.notes]⟩

theorem add (h : out.Mirrors out') (chunk : List UInt8) :
    (out.add chunk).Mirrors (out'.add chunk.reverse) :=
  ⟨by simp [Output.add, h.chunks], by simp [Output.add, h.count], h.notes⟩

theorem length_bytes (h : out.Mirrors out') : out'.bytes.length = out.bytes.length := by
  simp [Output.bytes, h.chunks, List.length_flatten, List.sum_reverse, Function.comp_def]

end Output.Mirrors

/-- The second sink makes of each chunk's reverse what the first makes of the chunk. -/
def Sink.Alike (sink sink' : Sink) : Prop :=
  ∀ out out' chunk, out.Mirrors out' → sink' out' chunk.reverse = sink out chunk

theorem Sink.alike_memory : Sink.memory.Alike .memory := by
  intro out out' chunk _
  simp [Sink.memory]

theorem Sink.alike_limited (limit : Nat) (refusal : Option Refusal) :
    (Sink.limited limit refusal).Alike (.limited limit refusal) := by
  intro out out' chunk h
  simp [Sink.limited, h.count]

/-- Two passes end in the same way: with the same error, if they fail, and with mirrored outputs. If
it is the sink that makes them fail, they stop at the same chunk, of which the sink may have taken a
part. -/
inductive Pass.Mirrors {ε : Type} (sink : Sink) :
    Pass Output ε Unit → Pass Output ε Unit → Prop
  | done {out out' : Output} : out.Mirrors out' → Mirrors sink (.done () out) (.done () out')
  | failed {e : ε} {out out' : Output} :
      out.Mirrors out' → Mirrors sink (.failed e out) (.failed e out')
  | cut {e : ε} {out out' : Output} {chunk : List UInt8} :
      out.Mirrors out' → ¬sink.Accepts out chunk →
      Mirrors sink (.failed e (out.add (chunk.take (sink out chunk).taken)))
        (.failed e (out'.add (chunk.reverse.take (sink out chunk).taken)))

namespace Pass.Mirrors

variable {sink sink' : Sink}

theorem write (hsinks : sink.Alike sink') {out out' : Output} (h : out.Mirrors out')
    (chunk : List UInt8) :
    Mirrors sink (out.write sink chunk) (out'.write sink' chunk.reverse) := by
  have hanswer := hsinks out out' chunk h
  have haccepts : sink'.Accepts out' chunk.reverse ↔ sink.Accepts out chunk := by
    simp only [Sink.Accepts, hanswer, List.length_reverse]
  by_cases hyes : sink.Accepts out chunk
  · rw [Output.write_of_accepts hyes, Output.write_of_accepts (haccepts.mpr hyes)]
    exact .done (h.add chunk)
  · have hobjection : sink'.objection out' chunk.reverse = sink.objection out chunk := by
      simp only [Sink.objection, hanswer]
    rw [Output.write_of_not_accepts hyes, Output.write_of_not_accepts fun h => hyes (haccepts.mp h),
      hobjection, hanswer]
    exact .cut h hyes

/-- Zeros are the same in either order. -/
theorem map_reverse_zeroChunks (n : Nat) : (zeroChunks n).map List.reverse = zeroChunks n := by
  refine (List.map_congr_left ?_).trans (List.map_id _)
  intro chunk hchunk
  obtain ⟨k, -, rfl⟩ := zeros_of_mem_zeroChunks hchunk
  exact List.reverse_replicate

theorem andThen {x y : Encoding} (h : Mirrors sink x y) {q q' : Writer}
    (hq : ∀ out out', out.Mirrors out' → Mirrors sink (q out) (q' out'))
    (label : EncodeError → EncodeError) :
    Mirrors sink (Encoding.andThen label q x) (Encoding.andThen label q' y) := by
  cases h with
  | done hout => exact hq _ _ hout
  | failed hout => exact .failed hout
  | cut hout hnot => exact .cut hout hnot

theorem writeAll (hsinks : sink.Alike sink') (chunks : List (List UInt8)) {out out' : Output}
    (h : out.Mirrors out') :
    Mirrors sink (out.writeAll sink chunks) (out'.writeAll sink' (chunks.map List.reverse)) := by
  induction chunks generalizing out out' with
  | nil => exact .done h
  | cons chunk chunks ih =>
    have hfirst := write hsinks h chunk
    rw [List.map_cons, Output.writeAll, Output.writeAll]
    generalize out.write sink chunk = x at hfirst ⊢
    generalize out'.write sink' chunk.reverse = y at hfirst ⊢
    cases hfirst with
    | done hout => exact ih hout
    | failed hout => exact .failed hout
    | cut hout hnot => exact .cut hout hnot

theorem toEncoding {x y : Delivery} (h : Mirrors sink x y) (scalar : Bool) :
    Mirrors sink (x.toEncoding scalar) (y.toEncoding scalar) := by
  cases h with
  | done hout => exact .done hout
  | failed hout => exact .failed hout
  | cut hout hnot => exact .cut hout hnot

/-- Both byte orders at once, each with its own sink. -/
theorem law (c : Codec) (sink : ByteOrder → Sink) (hsinks : (sink .little).Alike (sink .big)) :
    Writer.Law c (fun order => order) (fun _ => c.options) sink fun _ w =>
      ∀ out out', out.Mirrors out' → Mirrors (sink .little) (w .little out) (w .big out') where
  scalar _ x _ _ h := (write hsinks h (x.encode .little)).toEncoding true
  room _ n _ _ h := by
    have hzeros := writeAll hsinks (zeroChunks n) h
    rw [map_reverse_zeroChunks] at hzeros
    exact hzeros.toEncoding false
  refusing _ _ _ _ _ _ h := .failed h
  noted note _ hp out out' h := hp _ _ (h.note note)
  counted := by
    intro spot r items p _ _ hp out out' h
    unfold Writer.counted
    cases (c.under c.options).countStop? r spot.frame.scope items.length with
    | none => exact hp out out' h
    | some stop => exact .failed h
  inside _ _ hp hq out out' h := (hp out out' h).andThen hq _

theorem encodeRecord (c : Codec) (hsinks : sink.Alike sink') (name : String)
    (context : Option Context) (r : Option Record) :
    Mirrors sink ((c.inOrder .little).encodeRecord sink name context r .empty)
      ((c.inOrder .big).encodeRecord sink' name context r .empty) := by
  cases r with
  | none => exact .failed .empty
  | some r =>
    exact (law c (fun order => if order = .little then sink else sink') hsinks).encodeRecord name
      context r .empty .empty .empty

/-- A sink that accepts everything cuts nothing off. -/
theorem of_accepts {ε : Type} {x y : Pass Output ε Unit} (h : Mirrors sink x y)
    (haccepts : ∀ out chunk, sink.Accepts out chunk) :
    x.result = y.result ∧ x.state.Mirrors y.state := by
  cases h with
  | done hout => exact ⟨rfl, hout⟩
  | failed hout => exact ⟨rfl, hout⟩
  | cut _ hnot => exact absurd (haccepts _ _) hnot

end Pass.Mirrors

namespace Codec

/-- The byte order reverses chunks and does nothing else. A record is written in both orders or in
neither, with the same error; the chunks that go to the sink in one order are, one by one, the
reverse of those in the other, so as many bytes are written, and each field ends at the same offset.
Sinks that do not tell a chunk from its reverse stop both passes at the same chunk, if they do. -/
theorem encodeType_byteOrders (c : Codec) (name : String) (context : Option Context)
    (r : Option Record) :
    ((c.inOrder .little).encodeType .memory name context r).result =
      ((c.inOrder .big).encodeType .memory name context r).result ∧
    ((c.inOrder .big).encodeType .memory name context r).state.chunks =
      ((c.inOrder .little).encodeType .memory name context r).state.chunks.map List.reverse ∧
    ((c.inOrder .big).encodeType .memory name context r).state.bytes.length =
      ((c.inOrder .little).encodeType .memory name context r).state.bytes.length ∧
    ((c.inOrder .big).encodeType .memory name context r).state.notes =
      ((c.inOrder .little).encodeType .memory name context r).state.notes ∧
    ∀ sink sink' : Sink, sink.Alike sink' →
      Pass.Mirrors sink ((c.inOrder .little).encodeType sink name context r)
        ((c.inOrder .big).encodeType sink' name context r) := by
  have hmirrors : ∀ sink sink' : Sink, sink.Alike sink' →
      Pass.Mirrors sink ((c.inOrder .little).encodeType sink name context r)
        ((c.inOrder .big).encodeType sink' name context r) := by
    intro sink sink' hsinks
    rw [encodeType_eq_andThen, encodeType_eq_andThen]
    apply (Pass.Mirrors.encodeRecord c hsinks name context r).andThen
    intro out out' h
    exact .done (h.note (.encodedRecord name))
  obtain ⟨hresult, hout⟩ := (hmirrors _ _ Sink.alike_memory).of_accepts Sink.accepts_memory
  exact ⟨hresult, hout.chunks, hout.length_bytes, hout.notes, hmirrors⟩

/-- Two numbers with room for four bytes: the second does not fit, in either order. -/
theorem encodeType_byteOrders_full_sink :
    ∃ (c : Codec) (r : Record), c = ⟨⟨.little, [], ⟨"root", [⟨"n", .ofPrimitive .u16, none, none⟩,
        ⟨"m", .ofPrimitive .u32, none, none⟩]⟩⟩, .strict⟩ ∧
      r = ⟨c.schema.root, [.scalar (.u16 258), .scalar (.u32 7)]⟩ ∧
      ((c.inOrder .little).encodeType .memory "root" none (some r)).state.chunks =
        [[7, 0, 0, 0], [2, 1]] ∧
      ((c.inOrder .big).encodeType .memory "root" none (some r)).state.chunks =
        [[0, 0, 0, 7], [1, 2]] ∧
      (Sink.limited 4 none).Alike (.limited 4 none) ∧
      Pass.Mirrors (.limited 4 none)
        ((c.inOrder .little).encodeType (.limited 4 none) "root" none (some r))
        ((c.inOrder .big).encodeType (.limited 4 none) "root" none (some r)) := by
  refine ⟨_, _, rfl, rfl, by decide +kernel, by decide +kernel, Sink.alike_limited 4 none, ?_⟩
  obtain ⟨-, -, -, -, hmirrors⟩ := encodeType_byteOrders _ _ _ _
  exact hmirrors _ _ (Sink.alike_limited 4 none)

end Codec

end Savefile
