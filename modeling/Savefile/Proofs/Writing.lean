import Savefile.Proofs.Consistency

/-!
# What writers write

A record that fits throughout can be written, by a strict codec as by a lenient one, and what is
written are the bytes of its cells.
-/
namespace Savefile

namespace Output

/-- `out'` is `out` once `bytes` are written, notes aside. -/
structure Gains (out out' : Output) (b : List UInt8) : Prop where
  bytes : out'.bytes = out.bytes ++ b
  count : out'.count = out.count + b.length

variable {out out' out'' : Output} {b b' : List UInt8}

theorem Gains.refl (out : Output) : out.Gains out [] := ⟨by simp, rfl⟩

theorem Gains.trans (h : out.Gains out' b) (h' : out'.Gains out'' b') :
    out.Gains out'' (b ++ b') := by
  constructor
  · rw [h'.bytes, h.bytes, List.append_assoc]
  · rw [h'.count, h.count, List.length_append, Nat.add_assoc]

theorem Gains.note (h : out.Gains out' b) (n : Note) : out.Gains (out'.note n) b :=
  ⟨h.bytes, h.count⟩

theorem write_memory (out : Output) (chunk : List UInt8) :
    ∃ out', out.write .memory chunk = .done () out' ∧ out.Gains out' chunk := by
  refine ⟨{ out with chunks := chunk :: out.chunks, count := out.count + chunk.length }, ?_, ?_, rfl⟩
  · simp [write, Sink.memory]
  · simp [Output.bytes]

theorem writeAll_memory (out : Output) (chunks : List (List UInt8)) :
    ∃ out', out.writeAll .memory chunks = .done () out' ∧ out.Gains out' chunks.flatten := by
  induction chunks generalizing out with
  | nil => exact ⟨out, rfl, .refl out⟩
  | cons chunk chunks ih =>
    obtain ⟨out₁, h₁, hgain₁⟩ := out.write_memory chunk
    obtain ⟨out₂, h₂, hgain₂⟩ := ih out₁
    refine ⟨out₂, ?_, hgain₁.trans hgain₂⟩
    rw [writeAll, h₁]
    exact h₂

end Output

@[simp] theorem Delivery.toEncoding_done (scalar : Bool) (u : Unit) (out : Output) :
    toEncoding scalar (.done u out) = .done () out := rfl

@[simp] theorem Delivery.toEncoding_failed (scalar : Bool) (cause : Cause) (out : Output) :
    toEncoding scalar (.failed cause out) = out.fail (cause.kindOf scalar) cause := rfl

theorem Delivery.toEncoding_eq_done {scalar : Bool} {d : Delivery} {out : Output}
    (h : d.toEncoding scalar = .done () out) : d = .done () out := by
  cases d with
  | done u out' => simpa using h
  | failed cause out' => cases h

/-- The sink gives the error at some time. -/
def Sink.Gives (sink : Sink) (refusal : Refusal) : Prop :=
  ∃ out chunk, (sink out chunk).refusal = some refusal

/-- The sink gives an error that wraps one about a value, and this is the cause. -/
def Sink.Misleads (sink : Sink) (cause : Cause) : Prop :=
  ∃ refusal, sink.Gives refusal ∧ refusal.wrapsMisfit = true ∧ cause = .refused refusal

namespace Output

variable {sink : Sink}

theorem write_eq_writeAll (sink : Sink) (chunk : List UInt8) (out : Output) :
    out.write sink chunk = out.writeAll sink [chunk] := by
  unfold Output.writeAll
  cases out.write sink chunk <;> rfl

/-- A delivery fails because of the sink. -/
theorem write_failed {chunk : List UInt8} {out out' : Output} {cause : Cause}
    (h : out.write sink chunk = .failed cause out') :
    cause = .shortWrite ∨ ∃ refusal, sink.Gives refusal ∧ cause = .refused refusal := by
  unfold write at h
  dsimp only at h
  split at h
  · rename_i refusal hrefusal
    cases h
    exact .inr ⟨refusal, ⟨out, chunk, hrefusal⟩, rfl⟩
  · split at h
    · cases h
      exact .inl rfl
    · cases h

theorem writeAll_failed {chunks : List (List UInt8)} {out out' : Output} {cause : Cause}
    (h : out.writeAll sink chunks = .failed cause out') :
    cause = .shortWrite ∨ ∃ refusal, sink.Gives refusal ∧ cause = .refused refusal := by
  induction chunks generalizing out with
  | nil => cases h
  | cons chunk chunks ih =>
    rw [writeAll] at h
    cases hwrite : out.write sink chunk with
    | done _ out₁ =>
      rw [hwrite] at h
      exact ih h
    | failed cause₁ out₁ =>
      rw [hwrite] at h
      cases h
      exact write_failed hwrite

end Output

/-- A label that leaves the kind and the cause of an error alone and puts a step before its path. The
path stays as it is if the cause wraps an error of reading, which is labelled in its place. -/
structure EncodeError.IsLabel (step : PathStep) (label : EncodeError → EncodeError) : Prop where
  kind : ∀ e, (label e).kind = e.kind
  path : ∀ e, e.cause.wrapsReading = false → (label e).path = step :: e.path
  cause : ∀ e, (label e).cause = e.cause

theorem EncodeError.isLabel_inElement (i : Nat) : IsLabel (.index i) (.inElement i) := by
  constructor <;> intro e <;> cases h : e.cause.wrapsReading <;> simp [inElement, h]

theorem EncodeError.isLabel_inField (type id : String) :
    IsLabel (.field id) (.inField type id) := by
  constructor <;> intro e <;> cases h : e.cause.wrapsReading <;> simp [inField, h]

theorem flatten_zeroChunks (n : Nat) : (zeroChunks n).flatten = List.replicate n 0 := by
  have hn : n / zeroBlock * zeroBlock + n % zeroBlock = n := Nat.div_add_mod' n zeroBlock
  unfold zeroChunks
  rw [List.flatten_append, List.flatten_replicate_replicate]
  split
  · rename_i hrest
    rw [hrest, Nat.add_zero] at hn
    rw [hn]
    simp
  · conv_rhs => rw [← hn, List.replicate_add]
    simp

theorem zeros_of_mem_zeroChunks {n : Nat} {chunk : List UInt8} (h : chunk ∈ zeroChunks n) :
    ∃ k ≤ zeroBlock, chunk = List.replicate k 0 := by
  unfold zeroChunks at h
  rcases List.mem_append.mp h with hblock | hrest
  · exact ⟨_, Nat.le_refl _, List.eq_of_mem_replicate hblock⟩
  · split at hrest
    · cases hrest
    · have hless : n % zeroBlock < zeroBlock := Nat.mod_lt n (by decide)
      exact ⟨_, Nat.le_of_lt hless, List.mem_singleton.mp hrest⟩

namespace Codec

variable {c : Codec} {f : Field} {fr : Frame}

theorem map_byte_room (c : Codec) (f : Field) :
    (c.cells f .null).map Cell.byte = List.replicate (c.roomOf f) 0 := by
  rw [cells, List.map_replicate]
  rfl

theorem writeSingle_absent {cond : Condition} (hc : f.condition = some cond) (out : Output) :
    ∃ out', c.writeSingle .memory f .null out = .done () out' ∧
      out.Gains out' ((c.cells f .null).map Cell.byte) := by
  rw [map_byte_room]
  unfold writeSingle
  rw [hc]
  cases ha : cond.advance with
  | true =>
    have hr : c.roomOf f = c.keptWidth f.type := by simp [roomOf, hc, ha]
    obtain ⟨out', h, hgain⟩ := out.writeAll_memory (zeroChunks (c.keptWidth f.type))
    rw [flatten_zeroChunks] at hgain
    refine ⟨out', ?_, hr ▸ hgain⟩
    simp [ha, h]
  | false =>
    have hr : c.roomOf f = 0 := by simp [roomOf, hc, ha]
    refine ⟨out, by simp [ha], ?_⟩
    rw [hr]
    exact .refl out

theorem writeSingle_scalar {x : Scalar} (hk : f.type.kind = .primitive x.kind) (out : Output) :
    ∃ out', c.writeSingle .memory f (.scalar x) out = .done () out' ∧
      out.Gains out' ((c.cells f (.scalar x)).map Cell.byte) := by
  obtain ⟨out', h, hgain⟩ := out.write_memory (x.encode c.schema.order)
  rw [cells, Scalar.map_byte_cells]
  refine ⟨out', ?_, hgain⟩
  unfold writeSingle
  simp [hk, TypeKind.isComposite, writeScalar, deliver, h]

theorem countStop?_eq_none {r : Repetition} {scope : Scope} {n : Nat}
    (h : r.expr.evalCount scope = .ok n) : c.countStop? r scope n = none := by
  unfold countStop?
  split
  · rfl
  · simp [h]

mutual

theorem writeValue_holds {f : Field} {fr : Frame} :
    ∀ (v : Value) (out : Output), f.Holds fr.scope v → c.Throughout c.Fits fr.context v →
      ∃ out', c.writeValue .memory f none fr v out = .done () out' ∧
        out.Gains out' ((c.cells f v).map Cell.byte)
  | .null, out, hv, _ => by
    cases hv with
    | absent hc _ =>
      unfold writeValue
      exact writeSingle_absent hc out
  | .scalar x, out, hv, _ => by
    cases hv with
    | scalar _ hk =>
      unfold writeValue
      exact writeSingle_scalar hk out
  | .record t slots, out, hv, hthrough => by
    cases hv with
    | record _ hc hname =>
      unfold Throughout at hthrough
      obtain ⟨ht, hslots⟩ := hthrough
      have hw : c.writable? f.type.name t slots = some t := by
        rw [writable?, ← hname, ht]
        simp [hslots.length_eq]
      obtain ⟨out', h, hgain⟩ := writeSlots_fits t t.fields [] _ slots out hslots
      refine ⟨out', ?_, ?_⟩
      · unfold writeValue
        simp only [if_pos hc, hw]
        exact h
      · rw [cells]
        exact hgain
  | .list _, _, hv, _ => by cases hv
  | .foreign _ _, _, hv, _ => by cases hv
termination_by v => (sizeOf v, 0)

theorem writeItems_holds {f : Field} {fr : Frame} (i : Nat) :
    ∀ (vs : List Value) (out : Output), (∀ v ∈ vs, f.Holds fr.scope v) →
      c.ThroughoutItems c.Fits fr.context vs →
      ∃ out', c.writeItems .memory f fr i vs out = .done () out' ∧
        out.Gains out' ((c.itemCells f vs).map Cell.byte)
  | [], out, _, _ => by
    refine ⟨out, ?_, ?_⟩
    · unfold writeItems
      rfl
    · rw [itemCells]
      exact .refl out
  | v :: vs, out, hvs, hthrough => by
    unfold ThroughoutItems at hthrough
    obtain ⟨out₁, h₁, hgain₁⟩ := writeValue_holds v out (hvs v (List.mem_cons_self ..)) hthrough.1
    obtain ⟨out₂, h₂, hgain₂⟩ := writeItems_holds (i + 1) vs out₁
      (fun w hw => hvs w (List.mem_cons_of_mem _ hw)) hthrough.2
    refine ⟨out₂, ?_, ?_⟩
    · unfold writeItems
      simp only [h₁, h₂]
    · rw [itemCells, List.map_append]
      exact hgain₁.trans hgain₂
termination_by vs => (sizeOf vs, 0)

theorem writeSlots_fits (t : RecordType) (fields : List Field) (before : List Value) (fr : Frame) :
    ∀ (vs : List Value) (out : Output), c.ThroughoutSlots c.Fits t fields before fr vs →
      ∃ out', c.writeSlots .memory t t fields before fr vs out = .done () out' ∧
        out.Gains out' ((c.slotCells fields vs).map Cell.byte)
  | [], out, _ => by
    refine ⟨out, ?_, ?_⟩
    · unfold writeSlots
      rfl
    · rw [slotCells]
      exact .refl out
  | v :: vs, out, hvs => by
    cases fields with
    | nil => simp [ThroughoutSlots] at hvs
    | cons f fs =>
      simp only [ThroughoutSlots] at hvs
      obtain ⟨hfits, hthrough, hrest⟩ := hvs
      obtain ⟨out₁, h₁, hgain₁⟩ := writeValue_fits v out hfits hthrough
      have hgain₁' := hgain₁.note (.encodedField t.name f.id out₁.count)
      obtain ⟨out₂, h₂, hgain₂⟩ := writeSlots_fits t fs (v :: before) _ vs _ hrest
      refine ⟨out₂, ?_, ?_⟩
      · unfold writeSlots
        simp only [h₁]
        exact h₂
      · rw [slotCells, List.map_append]
        exact hgain₁'.trans hgain₂
termination_by vs => (sizeOf vs, 0)

theorem writeValue_fits {f : Field} {fr : Frame} (v : Value) (out : Output) (hv : c.Fits f fr v)
    (hthrough : c.Throughout c.Fits fr.context v) :
    ∃ out', c.writeValue .memory f f.repetition fr v out = .done () out' ∧
      out.Gains out' ((c.cells f v).map Cell.byte) := by
  cases hv with
  | single hr hholds =>
    rw [hr]
    exact writeValue_holds v out hholds hthrough
  | @list r items hr hcount hholds hne =>
    unfold Throughout at hthrough
    obtain ⟨out', h, hgain⟩ := writeItems_holds 0 items out hholds hthrough
    refine ⟨out', ?_, ?_⟩
    · unfold writeValue
      simp only [hr, countStop?_eq_none hcount]
      exact h
    · rw [cells]
      exact hgain
termination_by (sizeOf v, 1)

end

variable {context : Option Context} {r : Record}

theorem encodeRecord_fits (h : c.Throughout c.Fits context r.toValue) (out : Output) :
    ∃ out', c.encodeRecord .memory r.type.name context (some r) out = .done () out' ∧
      out.Gains out' ((c.recordCells r).map Cell.byte) := by
  rw [Record.toValue, Throughout] at h
  obtain ⟨ht, hslots⟩ := h
  have hw : c.writable? r.type.name r.type r.slots = some r.type := by
    rw [writable?, ht]
    simp [hslots.length_eq]
  obtain ⟨out', hout, hgain⟩ := writeSlots_fits r.type r.type.fields [] _ r.slots out hslots
  refine ⟨out', ?_, hgain⟩
  simp only [encodeRecord, hw]
  exact hout

/-- A record that fits throughout is written as the bytes of its cells. -/
theorem encodeType_fits (h : c.Throughout c.Fits context r.toValue) :
    ∃ out, c.encodeType .memory r.type.name context (some r) = .done () out ∧
      out.bytes = (c.recordCells r).map Cell.byte := by
  obtain ⟨out, hout, hgain⟩ := encodeRecord_fits h .empty
  refine ⟨out.note (.encodedRecord r.type.name out.count), ?_, ?_⟩
  · simp only [encodeType, hout]
  · exact hgain.bytes

theorem encode_fits (hr : r.type.name = c.schema.root.name)
    (h : c.Throughout c.Fits none r.toValue) :
    c.encode (some r) = .ok ((c.recordCells r).map Cell.byte) := by
  obtain ⟨out, hout, hbytes⟩ := encodeType_fits h
  rw [encode, encodeTo, ← hr, hout, ← hbytes]

end Codec

end Savefile
