import Savefile.Proofs.Nesting
import Savefile.Proofs.SharedRecords
import Savefile.Proofs.Writer
import Savefile.Proofs.ZeroRecords

/-!
# The context of a record of another codec

A record tells its type by its name, and roots mostly have the same name. So a record that one codec
made can be given to another, whose root has other fields. Writing it compares the number of fields
as well; taking its context does not, and has nothing to take where the record is too short.
-/
namespace Savefile

namespace Codec

/-- A record that a codec made: as it came from the codec, or as it stands in a store after
changes, unless it leads in circles. -/
inductive Built (c : Codec) (r : Record) : Prop
  | obtained : c.Obtained r → Built c r
  | stored {st : Store} {n : Nat} :
      c.Reached st → st.get? n = some r → st.Grounded n → Built c r

theorem Built.shaped {s : Schema} {options : CodecOptions} {c : Codec} (hs : s.Accepted)
    (hc : compile (some s) options = .ok c) {r : Record} (h : c.Built r) : c.Shaped r := by
  cases h with
  | obtained h => exact h.shaped hs hc
  | stored hst hget hground => exact (hst.sound hs hc).shaped hget hground

theorem length_slots_of_shaped {c : Codec} {r : Record} (h : c.Shaped r) :
    r.slots.length = r.type.fields.length :=
  (shaped_record_iff.mp h).2.length_eq.symm

theorem type?_of_shaped {c : Codec} {r : Record} (h : c.Shaped r) :
    c.type? r.type.name = some r.type := (shaped_record_iff.mp h).1

section Outcomes

variable {c : Codec} {r : Record}

theorem contextBoundary_le : c.contextBoundary ≤ c.schema.root.fields.length :=
  (List.takeWhile_prefix _).length_le

/-- A record of another name is refused, one that is too short gives nothing, and any other gives its
leading values. -/
theorem contextOf_cases (c : Codec) (r : Record) :
    (r.type.name ≠ c.schema.root.name ∧
      c.contextOf (some r) = .error (.error (.notRoot c.schema.root.name))) ∨
    (r.type.name = c.schema.root.name ∧ r.slots.length < c.contextBoundary ∧
      c.contextOf (some r) = .error (.fault .tooFewFields)) ∨
    (r.type.name = c.schema.root.name ∧ c.contextBoundary ≤ r.slots.length ∧
      c.contextOf (some r) = .ok (.ofSlots r.type r.slots c.contextBoundary)) := by
  by_cases hname : r.type.name = c.schema.root.name
  · right
    rcases Nat.lt_or_ge r.slots.length c.contextBoundary with hlt | hle
    · exact .inl ⟨hname, hlt, by simp [contextOf, isRoot, hname, hlt]⟩
    · exact .inr ⟨hname, hle, by simp [contextOf, isRoot, hname, hle]⟩
  · exact .inl ⟨hname, by simp [contextOf, isRoot, hname]⟩

theorem contextOf_eq_notRoot_iff :
    c.contextOf (some r) = .error (.error (.notRoot c.schema.root.name)) ↔
      r.type.name ≠ c.schema.root.name := by
  rcases c.contextOf_cases r with ⟨hname, h⟩ | ⟨hname, -, h⟩ | ⟨hname, -, h⟩ <;> simp [h, hname]

theorem contextOf_eq_tooFewFields_iff :
    c.contextOf (some r) = .error (.fault .tooFewFields) ↔
      r.type.name = c.schema.root.name ∧ r.slots.length < c.contextBoundary := by
  rcases c.contextOf_cases r with ⟨hname, h⟩ | ⟨hname, hlt, h⟩ | ⟨hname, hle, h⟩
  · simp [h, hname]
  · simp [h, hname, hlt]
  · simp [h, hname, hle]

theorem contextOf_eq_ok_iff {ctx : Context} :
    c.contextOf (some r) = .ok ctx ↔
      r.type.name = c.schema.root.name ∧ c.contextBoundary ≤ r.slots.length ∧
        ctx = .ofSlots r.type r.slots c.contextBoundary := by
  rcases c.contextOf_cases r with ⟨hname, h⟩ | ⟨hname, hlt, h⟩ | ⟨hname, hle, h⟩
  · simp [h, hname]
  · simp [h, Nat.not_le_of_lt hlt]
  · simp [h, hname, hle, eq_comm]

end Outcomes

section Refusal

variable {c : Codec} {r : Record}

theorem encodeRecord_root (h : r.type.name = c.schema.root.name)
    (hlength : r.slots.length = c.schema.root.fields.length) (sink : Sink) :
    c.encodeRecord sink c.schema.root.name none (some r) =
      c.writeSlots sink c.schema.root r.type c.schema.root.fields [] (.start none) r.slots := by
  funext out
  simp [encodeRecord, writable?, type?_root, h, hlength]

theorem encodeRecord_of_other
    (h : ¬(r.type.name = c.schema.root.name ∧ r.slots.length = c.schema.root.fields.length))
    (sink : Sink) :
    c.encodeRecord sink c.schema.root.name none (some r) =
      refuseRecord c.schema.root.name (some r.type.name) := by
  funext out
  simp only [encodeRecord, writable?, type?_root, if_neg h]

/-- What fails in a record fails in one of its fields. -/
theorem path_ne_nil_of_writeSlots {sink : Sink} {t own : RecordType} {fields : List Field}
    {before : List Value} {fr : Frame} {vs : List Value} {out out' : Output} {e : EncodeError}
    (h : c.writeSlots sink t own fields before fr vs out = .failed (.error e) out')
    (hplain : e.cause.wrapsReading = false) : e.path ≠ [] := by
  induction vs generalizing fields before fr out with
  | nil =>
    rw [writeSlots] at h
    cases h
  | cons v vs ih =>
    cases fields with
    | nil =>
      rw [writeSlots] at h
      cases h
    | cons f fs =>
      rw [writeSlots_cons, Writer.andThen] at h
      cases hv : c.writeValue sink f f.repetition
          (fr.before (c.sharesAfter? t.name) own before) v out with
      | done _ out₁ =>
        rw [hv] at h
        exact ih h
      | failed stop out₁ =>
        rw [hv] at h
        cases stop with
        | fault f => cases h
        | error e' =>
          cases h
          have hlabel := EncodeError.isLabel_inField t.name f.id
          rw [hlabel.cause] at hplain
          simp [hlabel.path e' hplain]

/-- A record as a whole is refused just for its name or for its number of fields. -/
theorem encode_refuses_iff :
    (∃ e, c.encode (some r) = .error (.error e) ∧ e.path = []) ↔
      r.type.name ≠ c.schema.root.name ∨ r.slots.length ≠ c.schema.root.fields.length := by
  rw [encode_eq_written, ← not_and_or]
  by_cases h : r.type.name = c.schema.root.name ∧ r.slots.length = c.schema.root.fields.length
  · refine ⟨?_, fun hnot => absurd h hnot⟩
    rintro ⟨e, he, hpath⟩
    obtain ⟨out, hfailed⟩ := failed_of_written he
    have hplain := wrapsReading_of_memory hfailed
    rw [encodeRecord_root h.1 h.2] at hfailed
    exact absurd hpath (path_ne_nil_of_writeSlots hfailed hplain)
  · rw [encodeRecord_of_other h]
    exact ⟨fun _ => h, fun _ => ⟨_, rfl, rfl⟩⟩

end Refusal

/-! ## What is handed on -/

section Handed

variable {c : Codec}

/-- A field of a type that is not the root is written in the context of its record. -/
theorem ComesToSlot.context_eq {t own : RecordType} (ht : c.isRoot t.name = false)
    {fields : List Field} {before vs : List Value} {fr fr' : Frame} {g : Field} {v : Value}
    (h : c.ComesToSlot t own fields before fr vs g fr' v) : fr'.context = fr.context := by
  have hbefore : ∀ (fr : Frame) (before : List Value),
      fr.before (c.sharesAfter? t.name) own before = fr := by
    simp [Frame.before, sharesAfter?, ht]
  induction h with
  | here => rw [hbefore]
  | later _ ih => rw [ih, hbefore, Frame.bind]

/-- A composite field of the root comes after the leading fields, and is written in their
context. -/
theorem ComesToSlot.context_root {own : RecordType} {slots before vs : List Value}
    {fields earlier : List Field} {fr fr' : Frame} {g : Field} {v : Value}
    (h : c.ComesToSlot c.schema.root own fields before fr vs g fr' v)
    (hfields : c.schema.root.fields = earlier ++ fields) (hearlier : earlier.length = before.length)
    (hslots : slots = before.reverse ++ vs)
    (hcontext : c.contextBoundary < before.length →
      fr.context = some (.ofSlots own slots c.contextBoundary))
    (hg : g.type.kind.isComposite = true) :
    fr'.context = some (.ofSlots own slots c.contextBoundary) := by
  induction h generalizing earlier with
  | here f fs before fr v vs =>
    apply context_before_of_le hslots hcontext
    by_contra hlt
    have hnot := not_composite_of_lt_boundary hfields (hearlier ▸ Nat.lt_of_not_le hlt)
    rw [hg] at hnot
    cases hnot
  | @later f g fs before fr fr' v w vs _ ih =>
    have hfields' : c.schema.root.fields = (earlier ++ [f]) ++ fs := by simp [hfields]
    apply ih hfields' _ _ _ hg
    · simp [hearlier]
    · simp [hslots]
    · intro hlt
      exact context_before_of_le hslots hcontext (Nat.le_of_lt_succ hlt)

/-- A record at the spot is of a declared type and is handed the context. -/
structure Shares (c : Codec) (ctx : Context) (spot : Spot) : Prop where
  declared : spot.field.type.kind.isComposite = true →
    (c.schema.declared? spot.field.type.name).isSome = true
  context : spot.field.type.kind.isComposite = true → spot.frame.context = some ctx

theorem Enters.shares (hl : c.schema.Linked) {ctx : Context} {spot next : Spot} {step : PathStep}
    (h : c.Enters spot step next) (hspot : c.Shares ctx spot) : c.Shares ctx next := by
  cases h with
  | element => exact ⟨hspot.declared, hspot.context⟩
  | slot _ hcomposite _ ht hcomes =>
    obtain ⟨ht, -⟩ := writable?_eq_some ht
    have hroot := isRoot_eq_false hl (hspot.declared hcomposite)
    rw [← type?_name ht] at hroot
    refine ⟨declared_of_type? hl ht _ hcomes.mem, fun _ => ?_⟩
    rw [hcomes.context_eq hroot, hroot]
    exact hspot.context hcomposite

theorem Within.shares (hl : c.schema.Linked) {ctx : Context} {spot last : Spot}
    {path : List PathStep} (h : c.Within spot path last) (hspot : c.Shares ctx spot) :
    c.Shares ctx last := by
  induction h with
  | itself => exact hspot
  | inside henters _ ih => exact ih (henters.shares hl hspot)

/-- The fields of a root record, whichever type it says it has, share its leading fields. -/
theorem Enters.shares_root (hl : c.schema.Linked) {r : Record} {next : Spot} {step : PathStep}
    (h : c.Enters (.ofRecord c.schema.root.name none r) step next) :
    c.Shares (.ofSlots r.type r.slots c.contextBoundary) next := by
  cases h with
  | element hrepeated => cases hrepeated
  | slot _ _ hvalue ht hcomes =>
    cases hvalue
    obtain ⟨ht, -⟩ := writable?_eq_some ht
    obtain rfl := Option.some.inj (c.type?_root.symm.trans ht)
    refine ⟨declared_of_type? hl ht _ hcomes.mem, fun hg => ?_⟩
    apply hcomes.context_root (List.nil_append _).symm rfl rfl _ hg
    intro hlt
    cases hlt

/-- Writing the fields of a record is writing some and then the others, in the frame that these
left. -/
theorem exists_writeSlots_append (t own : RecordType) {fields : List Field} {vs : List Value}
    (hlength : fields.length = vs.length) (before : List Value) (fr : Frame) :
    ∃ fr' : Frame, ∀ sink fields' vs',
      c.writeSlots sink t own (fields ++ fields') before fr (vs ++ vs') =
        Writer.andThen id (c.writeSlots sink t own fields before fr vs)
          (c.writeSlots sink t own fields' (vs.reverse ++ before) fr' vs') := by
  induction vs generalizing fields before fr with
  | nil =>
    obtain rfl := List.length_eq_zero_iff.mp hlength
    refine ⟨fr, fun sink fields' vs' => funext fun out => ?_⟩
    simp [writeSlots, Writer.andThen, Encoding.andThen]
  | cons v vs ih =>
    obtain ⟨f, fs, rfl⟩ := List.exists_cons_of_length_eq_add_one hlength
    obtain ⟨fr', hrest⟩ := ih (Nat.succ.inj hlength) (v :: before)
      ((fr.before (c.sharesAfter? t.name) own before).bind f.id v)
    refine ⟨fr', fun sink fields' vs' => funext fun out => ?_⟩
    simp only [List.cons_append, writeSlots_cons, hrest, List.reverse_cons, List.append_assoc,
      List.nil_append, Writer.andThen]
    cases c.writeValue sink f f.repetition (fr.before (c.sharesAfter? t.name) own before) v out with
    | done _ out' => rfl
    | failed stop out' => cases stop <;> rfl

theorem writeValue_eq_encodeRecord (sink : Sink) {f : Field} (hf : f.type.kind.isComposite = true)
    (fr : Frame) (q : Record) :
    c.writeValue sink f none fr q.toValue =
      c.encodeRecord sink f.type.name fr.context (some q) := by
  funext out
  rw [Record.toValue, writeValue]
  simp only [encodeRecord, hf, if_true]

/-- While a record is written as a root, the context is what the records inside it are handed. -/
structure HandsOn (c : Codec) (r : Record) (ctx : Context) : Prop where
  /-- The fields after the leading ones are written in a frame that shares it. -/
  rest : ∃ fr : Frame,
    fr.before (c.sharesAfter? c.schema.root.name) r.type
      (r.slots.take c.contextBoundary).reverse = fr.share ctx ∧
    ∀ sink, c.encodeRecord sink c.schema.root.name none (some r) =
      Writer.andThen id
        (c.writeSlots sink c.schema.root r.type (c.schema.root.fields.take c.contextBoundary) []
          (.start none) (r.slots.take c.contextBoundary))
        (c.writeSlots sink c.schema.root r.type (c.schema.root.fields.drop c.contextBoundary)
          (r.slots.take c.contextBoundary).reverse fr (r.slots.drop c.contextBoundary))
  /-- A record inside, at any depth, is written like one on its own in this context. -/
  inside : ∀ path spot, c.Within (.ofRecord c.schema.root.name none r) path spot → path ≠ [] →
    spot.field.type.kind.isComposite = true → spot.frame.context = some ctx ∧
      ∀ q : Record, spot.repeated = none → spot.value = q.toValue →
        ∀ sink, c.writeValue sink spot.field spot.repeated spot.frame spot.value =
          c.encodeRecord sink spot.field.type.name (some ctx) (some q)

theorem handsOn_of_root (hl : c.schema.Linked) {r : Record}
    (hname : r.type.name = c.schema.root.name)
    (hlength : r.slots.length = c.schema.root.fields.length) :
    c.HandsOn r (.ofSlots r.type r.slots c.contextBoundary) := by
  have hle : c.contextBoundary ≤ r.slots.length := hlength ▸ contextBoundary_le
  constructor
  · have htake : (c.schema.root.fields.take c.contextBoundary).length =
        (r.slots.take c.contextBoundary).length := by
      rw [List.length_take, List.length_take, hlength]
    obtain ⟨fr, hrest⟩ := c.exists_writeSlots_append c.schema.root r.type htake [] (.start none)
    refine ⟨fr, ?_, fun sink => ?_⟩
    · simp [Frame.before, sharesAfter?, isRoot, hle, Context.ofSlots, List.take_take]
    · rw [encodeRecord_root hname hlength]
      have hsplit := hrest sink (c.schema.root.fields.drop c.contextBoundary)
        (r.slots.drop c.contextBoundary)
      rwa [List.take_append_drop, List.take_append_drop, List.append_nil] at hsplit
  · intro path spot hwithin hpath hcomposite
    have hshares : c.Shares (.ofSlots r.type r.slots c.contextBoundary) spot := by
      cases hwithin with
      | itself => exact absurd rfl hpath
      | inside henters hwithin => exact hwithin.shares hl (henters.shares_root hl)
    have hcontext := hshares.context hcomposite
    refine ⟨hcontext, fun q hsingle hvalue sink => ?_⟩
    rw [hsingle, hvalue, writeValue_eq_encodeRecord sink hcomposite, hcontext]

end Handed

/-- What a codec makes of a record that another codec made. It refuses to give a context just if the
record has another name than its root. It has none to give just if the name is the same and the
fields are fewer than the leading fields of its root; so the two codecs are safe together unless the
other has such a type. Otherwise the leading values are the context, also where writing refuses the
record because it has another number of fields. Where writing takes the record, this context is
the one that all records inside it are handed. -/
theorem contextOf_other_codec {s s' : Schema} {options options' : CodecOptions} {a b : Codec}
    (hs : s.Accepted) (ha : compile (some s) options = .ok a) (hs' : s'.Accepted)
    (hb : compile (some s') options' = .ok b) :
    ((∀ r, b.Built r → a.contextOf (some r) ≠ .error (.fault .tooFewFields)) ↔
      ∀ t, b.type? s.root.name = some t → s.root.contextBoundary ≤ t.fields.length) ∧
    ∀ r, b.Built r →
      (a.contextOf (some r) = .error (.error (.notRoot s.root.name)) ↔ r.type.name ≠ s.root.name) ∧
      (a.contextOf (some r) = .error (.fault .tooFewFields) ↔
        r.type.name = s.root.name ∧ r.type.fields.length < s.root.contextBoundary) ∧
      (∀ ctx, a.contextOf (some r) = .ok ctx ↔
        r.type.name = s.root.name ∧ s.root.contextBoundary ≤ r.type.fields.length ∧
          ctx = .ofSlots r.type r.slots s.root.contextBoundary) ∧
      ((∃ e, a.encode (some r) = .error (.error e) ∧ e.path = []) ↔
        r.type.name ≠ s.root.name ∨ r.type.fields.length ≠ s.root.fields.length) ∧
      ((¬∃ e, a.encode (some r) = .error (.error e) ∧ e.path = []) →
        ∃ ctx, a.contextOf (some r) = .ok ctx ∧ a.HandsOn r ctx) := by
  have hl := linked_of_compile hs ha
  obtain rfl := compile_ok ha
  have hlength : ∀ r, b.Built r → r.slots.length = r.type.fields.length :=
    fun r hr => length_slots_of_shaped (hr.shaped hs' hb)
  refine ⟨⟨?_, ?_⟩, ?_⟩
  · intro hsafe t ht
    obtain ⟨r, hr, rfl⟩ := exists_newRecord hs' hb ht
    have hbuilt : b.Built r := .obtained (.new hr)
    refine Nat.le_of_not_lt fun hlt => hsafe r hbuilt ?_
    apply contextOf_eq_tooFewFields_iff.mpr
    rw [hlength r hbuilt]
    exact ⟨type?_name ht, hlt⟩
  · intro htypes r hr hfault
    obtain ⟨hname, hlt⟩ := contextOf_eq_tooFewFields_iff.mp hfault
    have ht := type?_of_shaped (hr.shaped hs' hb)
    rw [hname] at ht
    rw [hlength r hr] at hlt
    exact Nat.not_le_of_lt hlt (htypes r.type ht)
  · intro r hr
    rw [encode_refuses_iff, ← hlength r hr]
    refine ⟨contextOf_eq_notRoot_iff, contextOf_eq_tooFewFields_iff, fun ctx => contextOf_eq_ok_iff,
      Iff.rfl, ?_⟩
    intro htaken
    obtain ⟨hname, hfields⟩ := not_or.mp htaken
    have hname := not_not.mp hname
    have hfields := not_not.mp hfields
    refine ⟨_, contextOf_eq_ok_iff.mpr ⟨hname, ?_, rfl⟩, handsOn_of_root hl hname hfields⟩
    exact hfields ▸ contextBoundary_le

/-- A root with two leading fields, given a record with one of them and a record with one more. -/
theorem contextOf_other_codec_lengths :
    ∃ s a, Schema.parse "items:\n- id: x\n  type: u8\n- id: y\n  type: u8".toUTF8.toList = .ok s ∧
      compile (some s) .strict = .ok a ∧
      (∃ s' b, Schema.parse "items:\n- id: x\n  type: u8".toUTF8.toList = .ok s' ∧
        compile (some s') .strict = .ok b ∧
        ∃ r, b.newRecord "root" = .ok r ∧ a.contextOf (some r) = .error (.fault .tooFewFields)) ∧
      ∃ s' b, Schema.parse ("items:\n- id: x\n  type: u8\n- id: y\n  type: u8\n" ++
          "- id: z\n  type: u8").toUTF8.toList = .ok s' ∧
        compile (some s') .strict = .ok b ∧
        ∃ r, b.newRecord "root" = .ok r ∧ (∃ e, a.encode (some r) = .error (.error e) ∧ e.path = []) ∧
          ∃ ctx, a.contextOf (some r) = .ok ctx := by
  refine exists_of_parse (fun c => some (c.schema.root.name, c.schema.root.contextBoundary,
    c.schema.root.fields.length)) ("root", 2, 2) (by decide +kernel) ?_
  intro s a hs ha h
  obtain rfl := compile_ok ha
  simp only [Option.some.injEq, Prod.mk.injEq] at h
  obtain ⟨hname, hboundary, hfields⟩ := h
  constructor
  · refine exists_of_parse (fun c => (c.newRecord "root").toOption.map fun r =>
      (r.type.name, r.type.fields.length)) ("root", 1) (by decide +kernel) ?_
    intro s' b hs' hb h
    obtain ⟨r, hr, h⟩ := Option.map_eq_some_iff.mp h
    have hr := eq_ok_of_toOption hr
    simp only [Prod.mk.injEq] at h
    obtain ⟨-, hrecord⟩ := contextOf_other_codec (.of_parse hs) ha (.of_parse hs') hb
    obtain ⟨-, hfew, -⟩ := hrecord r (.obtained (.new hr))
    refine ⟨r, hr, hfew.mpr ?_⟩
    rw [hname, hboundary, h.1, h.2]
    exact ⟨rfl, Nat.one_lt_two⟩
  · refine exists_of_parse (fun c => (c.newRecord "root").toOption.map fun r =>
      (r.type.name, r.type.fields.length)) ("root", 3) (by decide +kernel) ?_
    intro s' b hs' hb h
    obtain ⟨r, hr, h⟩ := Option.map_eq_some_iff.mp h
    have hr := eq_ok_of_toOption hr
    simp only [Prod.mk.injEq] at h
    obtain ⟨-, hrecord⟩ := contextOf_other_codec (.of_parse hs) ha (.of_parse hs') hb
    obtain ⟨-, -, hcontext, hrefuses, -⟩ := hrecord r (.obtained (.new hr))
    refine ⟨r, hr, hrefuses.mpr (.inr ?_), _, (hcontext _).mpr ⟨?_, ?_, rfl⟩⟩
    · rw [h.2, hfields]
      decide
    · rw [h.1, hname]
    · rw [h.2, hboundary]
      decide

end Codec

end Savefile
