import Savefile.Command.Run
import Savefile.Proofs.Culprit
import Savefile.Proofs.Packing
import Savefile.Proofs.RoundTrip

/-!
# Save data read twice

A save that can be read once is written, packed, unpacked and read again without an error, and
both readings give the same record. So a round trip fails on its first reading or not at all. It
has no end only if the first reading has none, as its records hold each other forever.
-/
namespace Savefile

namespace Codec

variable {c : Codec} {data : List UInt8} {r : Record}

theorem decode_ok_iff : c.decode data = .ok r ↔ ∃ s, c.decodeFrom (.ofBytes data) = .done r s := by
  rw [decode, decodePrefix]
  cases h : c.decodeFrom (.ofBytes data) with
  | done r' s => simp [Except.map]
  | failed stop s => simp [Except.map]

theorem decode_error_iff {stop : DecodeStop} :
    c.decode data = .error stop ↔ ∃ s, c.decodeFrom (.ofBytes data) = .failed stop s := by
  rw [decode, decodePrefix]
  cases h : c.decodeFrom (.ofBytes data) with
  | done r' s => simp [Except.map]
  | failed stop s => simp [Except.map]

/-- A record that was read can be written, and is read from what was written. -/
theorem exists_encode_of_decode {s : Schema} {options : CodecOptions} (hs : s.Accepted)
    (hc : compile (some s) options = .ok c) (h : c.decode data = .ok r) :
    ∃ out, c.encode (some r) = .ok out ∧ c.decode out = .ok r := by
  obtain ⟨⟨r', n⟩, hprefix, rfl⟩ := exists_of_map_ok h
  obtain ⟨hroot, hfits, _⟩ := fits_of_decodePrefix hprefix
  refine ⟨_, encode_fits (by rw [hroot]) hfits, ?_⟩
  have hagain := decodePrefix_of_fits (linked_of_compile hs hc) hroot hfits (Spells.written _) []
  rw [List.append_nil] at hagain
  rw [decode, hagain]
  rfl

end Codec

namespace Command

section Script

variable (file : String → Except FileError (List UInt8)) (input : List UInt8)

/-- The codec that settings ask for. -/
def loadedCodec [Language] (st : Settings) : Except Error Codec :=
  if st.schema.isEmpty && st.compact.isEmpty then .error .noSchema
  else if st.schema.isEmpty then
    ((Schema.parseCompact st.compact).mapError .compactSchema).bind (codecOf st)
  else if st.compact.isEmpty then
    match file st.schema with
    | .error e => .error (.schemaFile st.schema e)
    | .ok bytes => ((Schema.parse bytes).mapError (.schemaDocument st.schema)).bind (codecOf st)
  else .error .bothSchemas

theorem run_loadCodec [Language] (st : Settings) (next : Except Error Codec → Script Outcome) :
    (loadCodec st next).run file input = (next (loadedCodec file st)).run file input := by
  unfold loadCodec loadedCodec
  split
  · rfl
  · split
    · rfl
    · split
      · rw [Script.run]
        cases file st.schema <;> rfl
      · rfl

/-- A codec that is loaded has a schema that was accepted. -/
theorem accepted_of_loadedCodec [Language] {st : Settings} {c : Codec}
    (h : loadedCodec file st = .ok c) :
    ∃ s : Schema, s.Accepted ∧ Codec.compile (some s) ⟨st.lenientCounts, none⟩ = .ok c := by
  unfold loadedCodec at h
  split at h
  · cases h
  · split at h
    · obtain ⟨s, hs, hc⟩ := exists_of_bind_ok h
      exact ⟨s, .inr ⟨_, mapError_ok_iff.mp hs⟩, mapError_ok_iff.mp hc⟩
    · split at h
      · split at h
        · cases h
        · obtain ⟨s, hs, hc⟩ := exists_of_bind_ok h
          exact ⟨s, .of_parse (mapError_ok_iff.mp hs), mapError_ok_iff.mp hc⟩
      · cases h

/-- The bytes of the input that an argument names. -/
def inputData (argument : Option String) : Except Error (List UInt8) :=
  match argument with
  | none => .ok input
  | some path =>
    if path == "-" then .ok input
    else
      match file path with
      | .error e => .error (.inputFile path e)
      | .ok bytes => .ok bytes

theorem run_readData (argument : Option String)
    (next : Except Error (List UInt8) → Script Outcome) :
    (readData argument next).run file input =
      (next (inputData file input argument)).run file input := by
  cases argument with
  | none => rfl
  | some path =>
    rw [readData, inputData]
    split
    · rfl
    · rw [Script.run]
      cases file path <;> rfl

end Script

/-- What an invocation works on: its codec, and the bytes of its input. -/
def loadedInput [Language] (i : Invocation) (file : String → Except FileError (List UInt8))
    (input : List UInt8) : Except Error (Codec × List UInt8) := do
  let c ← loadedCodec file i.settings
  let data ← inputData file input i.argument
  .ok (c, data)

section Invocation

variable {i : Invocation} {file : String → Except FileError (List UInt8)} {input : List UInt8}

theorem run_of_error [Language] {e : Error} (hverb : i.verb = .roundtrip)
    (h : loadedInput i file input = .error e) :
    (runInvocation i).run file input = .failure [] e := by
  rw [runInvocation, run_loadCodec]
  cases hc : loadedCodec file i.settings with
  | error e' =>
    rw [loadedInput, hc] at h
    cases h
    rfl
  | ok c =>
    cases hdata : inputData file input i.argument with
    | error e' =>
      rw [loadedInput, hc, hdata] at h
      cases h
      dsimp only
      rw [if_neg (by simp [hverb]), run_readData, hdata]
      rfl
    | ok data =>
      rw [loadedInput, hc, hdata] at h
      cases h

theorem run_of_loadedInput [Language] {c : Codec} {data : List UInt8} (hverb : i.verb = .roundtrip)
    (h : loadedInput i file input = .ok (c, data)) :
    (runInvocation i).run file input = roundtrip c i.settings data := by
  obtain ⟨c', hc, h⟩ := exists_of_bind_ok h
  obtain ⟨data', hdata, h⟩ := exists_of_bind_ok h
  cases h
  rw [runInvocation, run_loadCodec, hc]
  dsimp only
  rw [if_neg (by simp [hverb]), run_readData, hdata, hverb]
  rfl

end Invocation

/-- Save data out of its packing. -/
structure Unpacked where
  packing : Packing
  version : Nat
  bytes : List UInt8

/-- What is known of save data once it is read. -/
structure Reading where
  packing : Packing
  version : Nat
  record : Record

/-- Unpacks save data as settings ask for. -/
def unpackSave (st : Settings) (data : List UInt8) : Except Error Unpacked := do
  let p ← (Packing.ofSettings st.format st.checksum).mapError .packing
  let (bytes, version) ← (p.unpack data).mapError .packing
  .ok ⟨p, version, bytes⟩

/-- Reads the record in save data. -/
def readSave (c : Codec) (st : Settings) (data : List UInt8) : Except (Stop Error) Reading := do
  let u ← (unpackSave st data).mapError .error
  let r ← (c.decode u.bytes).mapError (.map .decode)
  .ok ⟨u.packing, u.version, r⟩

/-- Writes the record, packs and unpacks what was written, and reads it. -/
def Reading.again (x : Reading) (c : Codec) : Except (Stop Error) Record := do
  let out ← (c.encode (some x.record)).mapError (.map .encode)
  let (bytes, _) ← ((x.packing.pack out x.version).bind x.packing.unpack).mapError
    fun e => .error (.packing e)
  (c.decode bytes).mapError (.map .decode)

/-- The first reading of an invocation, from loading its codec to the record. -/
def firstReading [Language] (i : Invocation) (file : String → Except FileError (List UInt8))
    (input : List UInt8) : Except (Stop Error) (Codec × Reading) := do
  let (c, data) ← (loadedInput i file input).mapError .error
  let x ← readSave c i.settings data
  .ok (c, x)

/-- The outcome of a command that prints what it comes to. -/
def Outcome.ofResult (notes : List Note) : Except (Stop Error) (List UInt8) → Outcome
  | .error stop => .stopped notes stop
  | .ok output => .success notes output

/-- The line that tells whether two records are equal. -/
def verdict (first second : Record) : List UInt8 :=
  Packing.lineBytes (toString (first.equal second)).toList

/-- A round trip reads twice, and prints whether the second record is the first. -/
theorem exists_roundtrip_eq (c : Codec) (st : Settings) (data : List UInt8) :
    ∃ notes, roundtrip c st data = .ofResult notes
      ((readSave c st data).bind fun x => (x.again c).map (verdict x.record)) := by
  unfold roundtrip readSave unpackSave
  cases hp : Packing.ofSettings st.format st.checksum with
  | error e => exact ⟨_, rfl⟩
  | ok p =>
    simp only [mapError_ok, ok_bind]
    cases hunpack : p.unpack data with
    | error e => exact ⟨_, rfl⟩
    | ok unpacked =>
      obtain ⟨bytes, version⟩ := unpacked
      simp only [mapError_ok, ok_bind]
      cases hfirst : c.decodeFrom (.ofBytes bytes) with
      | failed stop s =>
        rw [Codec.decode_error_iff.mpr ⟨s, hfirst⟩]
        exact ⟨_, rfl⟩
      | done first s =>
        rw [Codec.decode_ok_iff.mpr ⟨s, hfirst⟩]
        change ∃ notes, _ = Outcome.ofResult notes
          ((Reading.again ⟨p, version, first⟩ c).map (verdict first))
        simp only [Reading.again, Codec.encode]
        cases hencode : c.encodeTo .memory (some first) with
        | failed stop out => exact ⟨_, rfl⟩
        | done _ out =>
          simp only [mapError_ok, ok_bind]
          cases hagain : (p.pack out.bytes version).bind p.unpack with
          | error e => exact ⟨_, rfl⟩
          | ok unpacked =>
            obtain ⟨bytes', version'⟩ := unpacked
            simp only [mapError_ok, ok_bind]
            cases hsecond : c.decodeFrom (.ofBytes bytes') with
            | failed stop s' =>
              rw [Codec.decode_error_iff.mpr ⟨s', hsecond⟩]
              exact ⟨_, rfl⟩
            | done second s' =>
              rw [Codec.decode_ok_iff.mpr ⟨s', hsecond⟩]
              exact ⟨_, rfl⟩

theorem roundtrip_of_error {c : Codec} {st : Settings} {data : List UInt8} {stop : Stop Error}
    (h : readSave c st data = .error stop) :
    (roundtrip c st data).output = [] ∧ (roundtrip c st data).stop = some stop := by
  obtain ⟨notes, hnotes⟩ := exists_roundtrip_eq c st data
  rw [hnotes, h]
  exact ⟨rfl, rfl⟩

/-- A reading can be repeated: the record is written, packed, unpacked and read without an error,
and the second record is the first. -/
def Reading.Repeats (x : Reading) (c : Codec) : Prop :=
  ∃ out packed, c.encode (some x.record) = .ok out ∧ x.packing.pack out x.version = .ok packed ∧
    x.packing.unpack packed = .ok (out, x.packing.keptVersion x.version) ∧
    c.decode out = .ok x.record ∧ x.record.equal x.record = true

theorem Reading.Repeats.again_eq {x : Reading} {c : Codec} (h : x.Repeats c) :
    x.again c = .ok x.record := by
  obtain ⟨out, packed, hencode, hpack, hunpack, hdecode, -⟩ := h
  simp only [again, hencode, hpack, Except.bind, hunpack, hdecode, mapError_ok, ok_bind]

theorem repeats_of_readSave {c : Codec} {st : Settings} {s : Schema} {options : CodecOptions}
    {data : List UInt8} {x : Reading} (hs : s.Accepted)
    (hc : Codec.compile (some s) options = .ok c) (h : readSave c st data = .ok x) :
    x.Repeats c := by
  obtain ⟨u, hu, h⟩ := exists_of_bind_ok h
  obtain ⟨r, hr, h⟩ := exists_of_bind_ok h
  cases h
  obtain ⟨p, -, hu⟩ := exists_of_bind_ok (mapError_ok_iff.mp hu)
  obtain ⟨⟨bytes, version⟩, hunpack, hu⟩ := exists_of_bind_ok hu
  cases hu
  obtain ⟨out, hencode, hdecode⟩ :=
    Codec.exists_encode_of_decode hs hc (mapError_ok_iff.mp hr)
  have hversion := Packing.version_le_of_unpack (mapError_ok_iff.mp hunpack)
  obtain ⟨packed, hpack, hunpack'⟩ := Packing.exists_pack p out hversion
  exact ⟨out, packed, hencode, hpack, hunpack', hdecode, r.equal_self⟩

theorem roundtrip_of_repeats {c : Codec} {st : Settings} {data : List UInt8} {x : Reading}
    (h : readSave c st data = .ok x) (hx : x.Repeats c) :
    (roundtrip c st data).output = Packing.lineBytes "true".toList ∧
      (roundtrip c st data).stop = none := by
  obtain ⟨notes, hnotes⟩ := exists_roundtrip_eq c st data
  have hequal : x.record.equal x.record = true := hx.elim fun _ h => h.elim fun _ h => h.2.2.2.2
  rw [hnotes, h, Except.bind, hx.again_eq, Except.map, verdict, hequal]
  exact ⟨rfl, rfl⟩

theorem accepted_of_loadedInput [Language] {i : Invocation}
    {file : String → Except FileError (List UInt8)} {input data : List UInt8} {c : Codec}
    (h : loadedInput i file input = .ok (c, data)) :
    ∃ s : Schema, s.Accepted ∧ Codec.compile (some s) ⟨i.settings.lenientCounts, none⟩ = .ok c := by
  obtain ⟨c', hc, h⟩ := exists_of_bind_ok h
  obtain ⟨data', -, h⟩ := exists_of_bind_ok h
  cases h
  exact accepted_of_loadedCodec file hc

theorem firstReading_error [Language] {i : Invocation}
    {file : String → Except FileError (List UInt8)} {input : List UInt8} {stop : Stop Error} (h : firstReading i file input = .error stop) :
    (∃ e, loadedInput i file input = .error e ∧ stop = .error e) ∨
      ∃ c data, loadedInput i file input = .ok (c, data) ∧
        readSave c i.settings data = .error stop := by
  unfold firstReading at h
  cases hload : loadedInput i file input with
  | error e =>
    rw [hload] at h
    cases h
    exact .inl ⟨e, rfl, rfl⟩
  | ok loaded =>
    obtain ⟨c, data⟩ := loaded
    refine .inr ⟨c, data, rfl, ?_⟩
    rw [hload, mapError_ok, ok_bind] at h
    cases hread : readSave c i.settings data with
    | error stop' =>
      simp only [hread, error_bind] at h
      cases h
      rfl
    | ok x =>
      simp only [hread, ok_bind] at h
      cases h

/-- Unpacking and loading end with an error if they do not end well. So what breaks off is the
reading of the record, and it breaks off with any number of levels. -/
theorem tooDeep_of_readSave {c : Codec} {st : Settings} {s : Schema} {options : CodecOptions}
    {data : List UInt8} {f : Fault} (hs : s.Accepted)
    (hc : Codec.compile (some s) options = .ok c) (h : readSave c st data = .error (.fault f)) :
    f = .tooDeep ∧ ∃ u, unpackSave st data = .ok u ∧
      ∀ levels, Reader.TooDeep (c.decodeRecord levels c.schema.root.name none (.ofBytes u.bytes)) := by
  unfold readSave at h
  cases hu : unpackSave st data with
  | error e =>
    rw [hu] at h
    cases h
  | ok u =>
    rw [hu, mapError_ok, ok_bind] at h
    cases hdecode : c.decode u.bytes with
    | ok r =>
      rw [hdecode] at h
      cases h
    | error stop =>
      rw [hdecode] at h
      obtain ⟨s', hfailed⟩ := Codec.decode_error_iff.mp hdecode
      cases Codec.stopsAtUnreadable_of_decodeType hs hc c.type?_root hfailed with
      | inl hdeep =>
        subst hdeep
        cases h
        exact ⟨rfl, u, rfl, Codec.tooDeep_of_decodeType (Codec.linked_of_compile hs hc) hfailed⟩
      | inr herror =>
        obtain ⟨e, m, rfl, -⟩ := herror
        cases h

end Command

end Savefile
