import Savefile.Proofs.RecordJson

/-!
# Values of the wrong kind

A record is well shaped if each value in it has the kind that its place asks for: a list, a scalar
of the field's kind, a record of the field's type, or nothing where a field is conditional. The
places are put in the order in which a writer comes to them. A lenient writer refuses a record
exactly if there is a value of the wrong kind at some place, and its error has the path of the first
of these.
-/
namespace Savefile

namespace Value

def isList : Value → Bool
  | .list _ => true
  | _ => false

/-- A place in a record: the way to it, the field it belongs to, whether it is `listed`, that is
whether the list of the field is wanted there, and the value that stands there. -/
structure Place where
  path : List PathStep
  field : Field
  listed : Bool
  value : Value

namespace Place

/-- The value is itself of the wrong kind; what is inside it does not matter. -/
def wrong (p : Place) : Bool :=
  if p.listed then !p.value.isList else (p.value.elementMisfit? p.field).isSome

/-- The place as it is seen one step farther out. -/
def behind (step : PathStep) (p : Place) : Place := { p with path := step :: p.path }

end Place

mutual

/-- The places of a value of a field, a value before those inside it. -/
def places (f : Field) (listed : Bool) : Value → List Place
  | .list items =>
    ⟨[], f, listed, .list items⟩ :: (if listed then itemPlaces f 0 items else [])
  | .record t slots => ⟨[], f, listed, .record t slots⟩ :: slotPlaces t.fields slots
  | v => [⟨[], f, listed, v⟩]

/-- The places of the elements of a list from the given index on. -/
def itemPlaces (f : Field) (i : Nat) : List Value → List Place
  | [] => []
  | v :: vs => (places f false v).map (Place.behind (.index i)) ++ itemPlaces f (i + 1) vs

/-- The places of the values of fields. -/
def slotPlaces (fields : List Field) : List Value → List Place
  | [] => []
  | v :: vs =>
    match fields with
    | [] => []
    | f :: fs =>
      (places f f.repetition.isSome v).map (Place.behind (.field f.id)) ++ slotPlaces fs vs

end

/-- The way to the first value of the wrong kind. -/
def firstWrong? (ps : List Place) : Option (List PathStep) := (ps.find? Place.wrong).map Place.path

theorem firstWrong?_nil : firstWrong? [] = none := rfl

theorem firstWrong?_cons_wrong {p : Place} (h : p.wrong = true) (ps : List Place) :
    firstWrong? (p :: ps) = some p.path := by
  simp [firstWrong?, h]

theorem firstWrong?_cons_right {p : Place} (h : p.wrong = false) (ps : List Place) :
    firstWrong? (p :: ps) = firstWrong? ps := by
  simp [firstWrong?, h]

theorem firstWrong?_cons_eq_none_iff {p : Place} {ps : List Place} :
    firstWrong? (p :: ps) = none ↔ p.wrong = false ∧ firstWrong? ps = none := by
  cases hp : p.wrong with
  | true => simp [firstWrong?_cons_wrong hp]
  | false => simp [firstWrong?_cons_right hp]

theorem firstWrong?_append (ps qs : List Place) :
    firstWrong? (ps ++ qs) = (firstWrong? ps).or (firstWrong? qs) := by
  unfold firstWrong?
  rw [List.find?_append]
  cases ps.find? Place.wrong <;> rfl

theorem firstWrong?_behind (step : PathStep) (ps : List Place) :
    firstWrong? (ps.map (Place.behind step)) = (firstWrong? ps).map (step :: ·) := by
  induction ps with
  | nil => rfl
  | cons p ps ih =>
    rw [List.map_cons]
    cases hp : p.wrong with
    | true => rw [firstWrong?_cons_wrong hp, firstWrong?_cons_wrong (p := p.behind step) hp]; rfl
    | false => rw [firstWrong?_cons_right hp, firstWrong?_cons_right (p := p.behind step) hp, ih]

theorem elementMisfit?_eq_none_iff {f : Field} {v : Value} :
    v.elementMisfit? f = none ↔ v.FitsAs f false := by
  constructor
  · exact fitsAs_of_elementMisfit?
  · intro h
    unfold elementMisfit?
    split
    · rfl
    · rename_i hnull
      rw [baseMisfit?_eq_none_iff]
      cases h with
      | absent hc => simp [hc, isNull] at hnull
      | @scalar s hk => exact .inl ⟨s, rfl, hk⟩
      | @record t slots hk hname => exact .inr ⟨t, slots, rfl, hk, hname⟩

theorem misfit?_eq_none_iff {f : Field} {v : Value} :
    v.misfit? f = none ↔ v.FitsAs f f.repetition.isSome := by
  constructor
  · exact fitsAs_of_misfit?
  · intro h
    unfold misfit?
    cases hr : f.repetition.isSome with
    | false =>
      rw [hr] at h
      simpa using elementMisfit?_eq_none_iff.mpr h
    | true =>
      rw [hr] at h
      cases h with
      | list hitems =>
        rw [if_pos rfl, itemsMisfit?_eq_none_iff]
        exact fun v hv => elementMisfit?_eq_none_iff.mpr (hitems v hv)

/-- Unless a list stands where one is wanted, a value of the right kind is one that fits. -/
theorem wrong_eq_false_iff {f : Field} {listed : Bool} {v : Value} {path : List PathStep}
    (h : listed = true → v.isList = false) :
    (⟨path, f, listed, v⟩ : Place).wrong = false ↔ v.FitsAs f listed := by
  cases listed with
  | false => simp [Place.wrong, elementMisfit?_eq_none_iff]
  | true =>
    have hnot : ¬v.FitsAs f true := by
      intro hfits
      cases hfits
      cases h rfl
    simp [Place.wrong, h rfl, hnot]

end Value

namespace Codec

open Value

section Frames

variable {c : Codec} {p : Field → Value → Prop}

mutual

/-- A predicate that does not depend on the frame holds in every context or in none. -/
theorem throughout_context : ∀ (v : Value) (context context' : Option Context),
    c.Throughout (fun f _ v => p f v) context v → c.Throughout (fun f _ v => p f v) context' v
  | .record t slots, _, _, h => by
    unfold Throughout at h ⊢
    exact ⟨h.1, throughoutSlots_frame t t.fields slots _ _ _ _ h.2⟩
  | .list items, context, context', h => by
    unfold Throughout at h ⊢
    exact throughoutItems_context items context context' h
  | .null, _, _, _ => by simp [Throughout]
  | .scalar _, _, _, _ => by simp [Throughout]
  | .foreign _ _, _, _, _ => by simp [Throughout]

theorem throughoutItems_context : ∀ (vs : List Value) (context context' : Option Context),
    c.ThroughoutItems (fun f _ v => p f v) context vs →
      c.ThroughoutItems (fun f _ v => p f v) context' vs
  | [], _, _, _ => by simp [ThroughoutItems]
  | v :: vs, context, context', h => by
    unfold ThroughoutItems at h ⊢
    exact ⟨throughout_context v context context' h.1,
      throughoutItems_context vs context context' h.2⟩

theorem throughoutSlots_frame (t : RecordType) (fields : List Field) :
    ∀ (vs before before' : List Value) (fr fr' : Frame),
      c.ThroughoutSlots (fun f _ v => p f v) t fields before fr vs →
        c.ThroughoutSlots (fun f _ v => p f v) t fields before' fr' vs
  | [], _, _, _, _, h => by
    unfold ThroughoutSlots at h ⊢
    exact h
  | v :: vs, before, before', fr, fr', h => by
    cases fields with
    | nil => simp [ThroughoutSlots] at h
    | cons f fs =>
      simp only [ThroughoutSlots] at h ⊢
      exact ⟨h.1, throughout_context v _ _ h.2.1, throughoutSlots_frame t fs vs _ _ _ _ h.2.2⟩

end

theorem throughoutSlots_iff {t : RecordType} {fields : List Field} {before vs : List Value}
    {fr : Frame} : c.ThroughoutSlots (fun f _ v => p f v) t fields before fr vs ↔
      List.Forall₂ (fun f v => p f v ∧ c.Throughout (fun f _ v => p f v) none v) fields vs := by
  induction vs generalizing fields before fr with
  | nil => simp [ThroughoutSlots]
  | cons v vs ih =>
    cases fields with
    | nil => simp [ThroughoutSlots]
    | cons f fs =>
      simp only [ThroughoutSlots, ih, List.forall₂_cons]
      constructor
      · rintro ⟨hp, hv, hrest⟩
        exact ⟨⟨hp, throughout_context v _ _ hv⟩, hrest⟩
      · rintro ⟨⟨hp, hv⟩, hrest⟩
        exact ⟨hp, throughout_context v _ _ hv, hrest⟩

theorem throughout_record_iff {t : RecordType} {slots : List Value} {context : Option Context} :
    c.Throughout (fun f _ v => p f v) context (.record t slots) ↔
      c.type? t.name = some t ∧
        List.Forall₂ (fun f v => p f v ∧ c.Throughout (fun f _ v => p f v) none v)
          t.fields slots := by
  rw [Throughout, throughoutSlots_iff]

end Frames

/-- All records in the value have types of the codec, and a value for each field. -/
def Typed (c : Codec) (v : Value) : Prop := c.Throughout (fun _ _ _ => True) none v

variable {c : Codec}

theorem typed_list_iff {items : List Value} :
    c.Typed (.list items) ↔ ∀ v ∈ items, c.Typed v := by
  rw [Typed, Throughout, throughoutItems_iff]
  rfl

theorem typed_record_iff {t : RecordType} {slots : List Value} :
    c.Typed (.record t slots) ↔
      c.type? t.name = some t ∧ slots.length = t.fields.length ∧ ∀ v ∈ slots, c.Typed v := by
  rw [Typed, throughout_record_iff]
  apply and_congr_right
  intro _
  rw [List.forall₂_iff_get]
  constructor
  · rintro ⟨hlength, h⟩
    refine ⟨hlength.symm, ?_⟩
    intro v hv
    obtain ⟨i, rfl⟩ := List.get_of_mem hv
    exact (h i (by rw [hlength]; exact i.isLt) i.isLt).2
  · rintro ⟨hlength, h⟩
    exact ⟨hlength.symm, fun i _ hi => ⟨trivial, h _ (List.get_mem slots ⟨i, hi⟩)⟩⟩

/-- Values with the shapes of their fields, and well shaped inside. -/
def ShapedSlots (c : Codec) (fields : List Field) (vs : List Value) : Prop :=
  List.Forall₂ (fun f v => v.misfit? f = none ∧ c.Throughout SlotShaped none v) fields vs

theorem shaped_record_iff {t : RecordType} {slots : List Value} {context : Option Context} :
    c.Throughout SlotShaped context (.record t slots) ↔
      c.type? t.name = some t ∧ c.ShapedSlots t.fields slots :=
  throughout_record_iff

theorem ShapedSlots.inside {fields : List Field} {vs : List Value} (h : c.ShapedSlots fields vs) :
    ∀ v ∈ vs, c.Throughout SlotShaped none v := by
  unfold ShapedSlots at h
  induction h with
  | nil => simp
  | cons hhead _ ih => exact List.forall_mem_cons.mpr ⟨hhead.2, ih⟩

theorem firstWrong?_leaf {f : Field} {listed : Bool} {v : Value}
    (hplaces : places f listed v = [⟨[], f, listed, v⟩]) (hlist : v.isList = false)
    (hinside : c.Throughout SlotShaped none v) :
    firstWrong? (places f listed v) = none ↔
      v.FitsAs f listed ∧ c.Throughout SlotShaped none v := by
  rw [hplaces, firstWrong?_cons_eq_none_iff, wrong_eq_false_iff fun _ => hlist]
  simp [firstWrong?_nil, hinside]

mutual

/-- No place of a value is wrong exactly if the value fits and every value inside it has the shape
of its field. -/
theorem firstWrong?_places {f : Field} : ∀ (v : Value) (listed : Bool), c.Typed v →
    (firstWrong? (places f listed v) = none ↔
      v.FitsAs f listed ∧ c.Throughout SlotShaped none v)
  | .list items, true, hv => by
    rw [places, if_pos rfl, firstWrong?_cons_right rfl,
      firstWrong?_itemPlaces items 0 (typed_list_iff.mp hv), Throughout, throughoutItems_iff]
    constructor
    · intro h
      exact ⟨.list fun v hv => (h v hv).1, fun v hv => (h v hv).2⟩
    · rintro ⟨hfits, hthrough⟩ v hv
      cases hfits with
      | list hitems => exact ⟨hitems v hv, hthrough v hv⟩
  | .list items, false, _ => by
    have hnot : ¬(Value.list items).FitsAs f false := by rintro ⟨⟩
    rw [places, if_neg (by simp), firstWrong?_cons_eq_none_iff, wrong_eq_false_iff (by simp)]
    simp [hnot]
  | .record t slots, listed, hv => by
    obtain ⟨ht, hlength, hslots⟩ := typed_record_iff.mp hv
    rw [places, firstWrong?_cons_eq_none_iff, wrong_eq_false_iff fun _ => rfl,
      firstWrong?_slotPlaces slots t.fields hlength hslots, shaped_record_iff]
    simp [ht]
  | .null, listed, _ => firstWrong?_leaf (by simp [places]) rfl (by simp [Throughout])
  | .scalar _, listed, _ => firstWrong?_leaf (by simp [places]) rfl (by simp [Throughout])
  | .foreign _ _, listed, _ => firstWrong?_leaf (by simp [places]) rfl (by simp [Throughout])

theorem firstWrong?_itemPlaces {f : Field} : ∀ (vs : List Value) (i : Nat),
    (∀ v ∈ vs, c.Typed v) →
    (firstWrong? (itemPlaces f i vs) = none ↔
      ∀ v ∈ vs, v.FitsAs f false ∧ c.Throughout SlotShaped none v)
  | [], _, _ => by simp [itemPlaces, firstWrong?_nil]
  | v :: vs, i, h => by
    rw [List.forall_mem_cons] at h
    rw [itemPlaces, firstWrong?_append, firstWrong?_behind, Option.or_eq_none_iff,
      Option.map_eq_none_iff, firstWrong?_places v false h.1,
      firstWrong?_itemPlaces vs (i + 1) h.2, List.forall_mem_cons]

theorem firstWrong?_slotPlaces : ∀ (vs : List Value) (fields : List Field),
    vs.length = fields.length → (∀ v ∈ vs, c.Typed v) →
    (firstWrong? (slotPlaces fields vs) = none ↔ c.ShapedSlots fields vs)
  | [], fields, hlength, _ => by
    obtain rfl : fields = [] := List.length_eq_zero_iff.mp hlength.symm
    simp [slotPlaces, firstWrong?_nil, ShapedSlots]
  | v :: vs, fields, hlength, h => by
    cases fields with
    | nil => cases hlength
    | cons f fs =>
      rw [List.forall_mem_cons] at h
      have hrest := firstWrong?_slotPlaces vs fs (Nat.succ.inj hlength) h.2
      simp only [slotPlaces]
      rw [firstWrong?_append, firstWrong?_behind, Option.or_eq_none_iff, Option.map_eq_none_iff,
        firstWrong?_places v _ h.1, hrest, ShapedSlots, ShapedSlots, List.forall₂_cons,
        misfit?_eq_none_iff]

end

theorem shaped_iff {r : Record} (hr : c.Typed r.toValue) :
    c.Shaped r ↔ firstWrong? (slotPlaces r.type.fields r.slots) = none := by
  obtain ⟨ht, hlength, hslots⟩ := typed_record_iff.mp hr
  rw [Shaped, Record.toValue, shaped_record_iff,
    firstWrong?_slotPlaces r.slots r.type.fields hlength hslots]
  simp [ht]

theorem Shaped.typed {r : Record} (h : c.Shaped r) : c.Typed r.toValue :=
  Throughout.imp (fun _ _ _ _ _ _ => trivial) none _ h

variable (c) in
/-- How a writer ends, given the way to the first value of the wrong kind: it writes everything if
there is none, and otherwise refuses that value. It may end before that over a count, if it is
strict, or because of its sink, if that is not the memory. -/
inductive Reports (sink : Sink) (wrong : Option (List PathStep)) : Encoding → Prop
  | written {out : Output} : wrong = none → Reports sink wrong (.done () out)
  | refused {e : EncodeError} {out : Output} :
      e.kind = .invalid → e.cause.wrapsReading = false → wrong = some e.path →
      Reports sink wrong (.failed (.error e) out)
  | stopped {stop : EncodeStop} {out : Output} :
      (c.options.lenient = true → sink ≠ .memory) →
      (∀ e, stop = .error e → e.kind = .invalid → sink.Misleads e.cause) →
      Reports sink wrong (.failed stop out)

variable {f : Field} {fr : Frame} {sink : Sink}

/-- A delivery to the memory succeeds, and every other one fails because of the sink. -/
theorem reports_writeAll (scalar : Bool) (chunks : List (List UInt8)) (out : Output) :
    c.Reports sink none ((out.writeAll sink chunks).toEncoding scalar) := by
  by_cases hsink : sink = .memory
  · rw [hsink]
    obtain ⟨out', hout, -⟩ := out.writeAll_memory chunks
    rw [hout]
    exact .written rfl
  · cases hwrite : out.writeAll sink chunks with
    | done _ out' => exact .written rfl
    | failed cause out' =>
      refine .stopped (fun _ => hsink) ?_
      rintro _ ⟨⟩ hkind
      rcases Output.writeAll_failed hwrite with rfl | ⟨refusal, hgives, rfl⟩
      · simp [Cause.kindOf, Cause.wrapsMisfit] at hkind
      · refine ⟨refusal, hgives, ?_, rfl⟩
        simp only [Cause.kindOf, Cause.wrapsMisfit, ite_eq_left_iff, Bool.and_eq_true] at hkind
        by_contra hplain
        simp [hplain] at hkind

theorem writeSingle_refused {v : Value} (hv : ¬v.FitsAs f false) (out : Output) :
    ∃ cause, cause.wrapsReading = false ∧
      c.writeSingle sink f v out = out.fail .invalid cause := by
  unfold writeSingle
  split
  · rename_i cond hc
    exact absurd (.absent (by simp [hc])) hv
  · split
    · exact ⟨_, rfl, rfl⟩
    · unfold writeScalar deliver
      split
      · split
        · rename_i hkind
          exact absurd (.scalar hkind) hv
        · exact ⟨_, rfl, rfl⟩
      · exact ⟨_, rfl, rfl⟩

theorem reports_writeSingle {v : Value}
    (hv : ∀ t slots, v = .record t slots → f.type.kind.isComposite = false) (out : Output) :
    c.Reports sink (firstWrong? [⟨[], f, false, v⟩]) (c.writeSingle sink f v out) := by
  by_cases hfits : v.FitsAs f false
  · have hright : firstWrong? [⟨[], f, false, v⟩] = none :=
      firstWrong?_cons_eq_none_iff.mpr ⟨(wrong_eq_false_iff (by simp)).mpr hfits, rfl⟩
    rw [hright]
    cases hfits with
    | absent hc =>
      obtain ⟨cond, hc⟩ := Option.isSome_iff_exists.mp hc
      simp only [writeSingle, hc]
      split
      · exact reports_writeAll false _ out
      · exact .written rfl
    | @scalar x hk =>
      have hwrite : c.writeSingle sink f (.scalar x) out =
          (out.writeAll sink [x.encode c.schema.order]).toEncoding true := by
        simp [writeSingle, hk, TypeKind.isComposite, writeScalar, deliver, Output.write_eq_writeAll]
      rw [hwrite]
      exact reports_writeAll true _ out
    | record hk _ =>
      rw [hv _ _ rfl] at hk
      cases hk
  · have hwrong : (⟨[], f, false, v⟩ : Place).wrong = true := by
      rw [← Bool.not_eq_false, wrong_eq_false_iff (by simp)]
      exact hfits
    obtain ⟨cause, hplain, hcause⟩ := writeSingle_refused (c := c) hfits out
    rw [hcause]
    exact .refused rfl hplain (firstWrong?_cons_wrong hwrong [])

theorem not_lenient_of_countStop? {r : Repetition} {scope : Scope} {n : Nat} {stop : EncodeStop}
    (h : c.countStop? r scope n = some stop) :
    c.options.lenient = false ∧ ∀ e, stop = .error e → e.kind ≠ .invalid := by
  unfold countStop? at h
  split at h
  · cases h
  · rename_i hlenient
    refine ⟨by simpa using hlenient, ?_⟩
    rintro e rfl
    split at h
    · rename_i why _
      cases why <;> cases h
      simp
    · split at h
      · cases h
      · cases h
        simp

theorem Reports.of_done {wrong : Option (List PathStep)} {out : Output}
    (h : c.Reports sink wrong (.done () out)) : wrong = none := by
  cases h with
  | written hnone => exact hnone

/-- A failure inside a value, as it is seen one step farther out, comes before all that follows. -/
theorem Reports.behind {wrong later : Option (List PathStep)} {stop : EncodeStop} {out : Output}
    {step : PathStep} {label : EncodeError → EncodeError} (hl : EncodeError.IsLabel step label)
    (h : c.Reports sink wrong (.failed stop out)) :
    c.Reports sink ((wrong.map (step :: ·)).or later) (.failed (stop.map label) out) := by
  cases h with
  | @refused e _ hinvalid hplain hwrong =>
    refine .refused ((hl.kind e).trans hinvalid) ((hl.cause e).symm ▸ hplain) ?_
    rw [hwrong, hl.path e hplain]
    rfl
  | stopped hwhy hmisleads =>
    refine .stopped hwhy ?_
    intro e he hinvalid
    cases stop with
    | fault f => cases he
    | error inner =>
      cases he
      rw [hl.kind] at hinvalid
      rw [hl.cause]
      exact hmisleads inner rfl hinvalid

mutual

/-- A writer of a value comes to its places in their order. -/
theorem reports_writeValue (hl : c.schema.Linked) {f : Field}
    (hf : f.type.kind.isComposite = true → (c.schema.declared? f.type.name).isSome = true) :
    ∀ (v : Value) (repeated : Option Repetition) (fr : Frame) (out : Output), c.Typed v →
      c.Reports sink (firstWrong? (places f repeated.isSome v))
        (c.writeValue sink f repeated fr v out)
  | .list items, some r, fr, out, hv => by
    unfold writeValue
    dsimp only
    split
    · rename_i stop hstop
      obtain ⟨hstrict, hkind⟩ := not_lenient_of_countStop? hstop
      exact .stopped (by simp [hstrict]) fun e he hinvalid => absurd hinvalid (hkind e he)
    · rw [places, Option.isSome_some, if_pos rfl, firstWrong?_cons_right rfl]
      exact reports_writeItems hl hf items 0 fr out (typed_list_iff.mp hv)
  | .list items, none, _, out, _ => by
    unfold writeValue places
    exact reports_writeSingle (by simp) out
  | .record t slots, some r, _, out, _ => by
    unfold writeValue places
    exact .refused rfl rfl (firstWrong?_cons_wrong rfl _)
  | .record t slots, none, fr, out, hv => by
    obtain ⟨ht, hlength, hslots⟩ := typed_record_iff.mp hv
    have hright : (⟨[], f, false, .record t slots⟩ : Place).wrong = false ↔
        (Value.record t slots).FitsAs f false := wrong_eq_false_iff (by simp)
    unfold writeValue
    dsimp only
    split
    · rename_i hcomposite
      obtain ⟨u, hu⟩ := Option.isSome_iff_exists.mp (hf hcomposite)
      have hwanted : c.type? f.type.name = some u := (type?_declared hl (hf hcomposite)).trans hu
      by_cases hname : t.name = f.type.name
      · -- A record of the wanted type is of that very type, since both are the codec's.
        obtain rfl : u = t := by
          rw [← hname, ht] at hwanted
          exact (Option.some.inj hwanted).symm
        have hw : c.writable? f.type.name u slots = some u := by
          simp [writable?, hwanted, hlength]
        rw [places, Option.isSome_none,
          firstWrong?_cons_right (hright.mpr (.record hcomposite hname)), hw]
        exact reports_writeSlots hl u slots [] u.fields _ out (declared_of_type? hl ht) hslots
      · have hw : c.writable? f.type.name t slots = none := by
          simp [writable?, hwanted, type?_name hwanted, hname]
        have hnot : ¬(Value.record t slots).FitsAs f false := by
          rintro ⟨⟩
          exact hname ‹_›
        rw [places, Option.isSome_none,
          firstWrong?_cons_wrong (by rw [← Bool.not_eq_false, hright]; exact hnot), hw]
        exact .refused rfl rfl rfl
    · rename_i hscalar
      have hnot : ¬(Value.record t slots).FitsAs f false := by
        rintro ⟨⟩
        exact hscalar ‹_›
      obtain ⟨cause, hplain, hcause⟩ := writeSingle_refused (c := c) hnot out
      rw [places, Option.isSome_none,
        firstWrong?_cons_wrong (by rw [← Bool.not_eq_false, hright]; exact hnot), hcause]
      exact .refused rfl hplain rfl
  | .null, some r, _, out, _ => by
    unfold writeValue places
    exact .refused rfl rfl rfl
  | .null, none, _, out, _ => by
    unfold writeValue places
    exact reports_writeSingle (by simp) out
  | .scalar _, some r, _, out, _ => by
    unfold writeValue places
    exact .refused rfl rfl rfl
  | .scalar _, none, _, out, _ => by
    unfold writeValue places
    exact reports_writeSingle (by simp) out
  | .foreign _ _, some r, _, out, _ => by
    unfold writeValue places
    exact .refused rfl rfl rfl
  | .foreign _ _, none, _, out, _ => by
    unfold writeValue places
    exact reports_writeSingle (by simp) out

theorem reports_writeItems (hl : c.schema.Linked) {f : Field}
    (hf : f.type.kind.isComposite = true → (c.schema.declared? f.type.name).isSome = true) :
    ∀ (vs : List Value) (i : Nat) (fr : Frame) (out : Output), (∀ v ∈ vs, c.Typed v) →
      c.Reports sink (firstWrong? (itemPlaces f i vs)) (c.writeItems sink f fr i vs out)
  | [], _, _, out, _ => by
    unfold writeItems itemPlaces
    exact .written rfl
  | v :: vs, i, fr, out, h => by
    rw [List.forall_mem_cons] at h
    have hfirst := reports_writeValue hl hf v none fr out h.1
    rw [itemPlaces, firstWrong?_append, firstWrong?_behind]
    unfold writeItems
    cases hwrite : c.writeValue sink f none fr v out with
    | failed e out' =>
      rw [hwrite] at hfirst
      exact hfirst.behind (EncodeError.isLabel_inElement i)
    | done _ out' =>
      rw [hwrite] at hfirst
      have hnone : firstWrong? (places f false v) = none := hfirst.of_done
      rw [hnone]
      exact reports_writeItems hl hf vs (i + 1) fr out' h.2

theorem reports_writeSlots (hl : c.schema.Linked) (t : RecordType) :
    ∀ (vs before : List Value) (fields : List Field) (fr : Frame) (out : Output),
      (∀ f ∈ fields, f.type.kind.isComposite = true →
        (c.schema.declared? f.type.name).isSome = true) → (∀ v ∈ vs, c.Typed v) →
      c.Reports sink (firstWrong? (slotPlaces fields vs))
        (c.writeSlots sink t t fields before fr vs out)
  | [], _, _, _, out, _, _ => by
    unfold writeSlots slotPlaces
    exact .written rfl
  | v :: vs, before, [], fr, out, _, _ => by
    unfold writeSlots slotPlaces
    exact .written rfl
  | v :: vs, before, f :: fs, fr, out, hfields, h => by
    rw [List.forall_mem_cons] at h hfields
    have hfirst := reports_writeValue hl hfields.1 v f.repetition
      (fr.before (c.sharesAfter? t.name) t before) out h.1
    rw [slotPlaces, firstWrong?_append, firstWrong?_behind]
    unfold writeSlots
    dsimp only
    cases hwrite : c.writeValue sink f f.repetition
        (fr.before (c.sharesAfter? t.name) t before) v out with
    | failed e out' =>
      rw [hwrite] at hfirst
      exact hfirst.behind (EncodeError.isLabel_inField t.name f.id)
    | done _ out' =>
      rw [hwrite] at hfirst
      rw [hfirst.of_done]
      exact reports_writeSlots hl t vs (v :: before) fs _ _ hfields.2 h.2

end

/-- A writer of records comes to the places of a record of the wanted type in their order. -/
theorem reports_encodeType (hl : c.schema.Linked) {r : Record} (hr : c.Typed r.toValue)
    (sink : Sink) (context : Option Context) :
    c.Reports sink (firstWrong? (slotPlaces r.type.fields r.slots))
      (c.encodeType sink r.type.name context (some r)) := by
  obtain ⟨ht, hlength, hslots⟩ := typed_record_iff.mp hr
  have hw : c.writable? r.type.name r.type r.slots = some r.type := by
    simp [writable?, ht, hlength]
  have hwrite : c.Reports sink (firstWrong? (slotPlaces r.type.fields r.slots))
      (c.writeSlots sink r.type r.type r.type.fields []
        (.start (if c.isRoot r.type.name then none else context)) r.slots .empty) :=
    reports_writeSlots hl r.type r.slots [] r.type.fields _ .empty (declared_of_type? hl ht) hslots
  simp only [encodeType, encodeRecord, hw]
  generalize c.writeSlots sink r.type r.type r.type.fields [] _ r.slots .empty = x at hwrite ⊢
  cases hwrite with
  | written hnone => exact .written hnone
  | refused hkind hplain hpath => exact .refused hkind hplain hpath
  | stopped hwhy hkind => exact .stopped hwhy hkind

variable (c) in
/-- The way to the first value of the wrong kind where a root record is wanted. -/
inductive FirstWrong : Option Record → List PathStep → Prop
  | nothing : FirstWrong none []
  | otherType {r : Record} : r.type ≠ c.schema.root → FirstWrong (some r) []
  | inside {r : Record} {path : List PathStep} : r.type = c.schema.root →
      firstWrong? (slotPlaces r.type.fields r.slots) = some path → FirstWrong (some r) path

theorem FirstWrong.of_root {r : Record} {path : List PathStep} (h : c.FirstWrong (some r) path)
    (hroot : r.type = c.schema.root) :
    firstWrong? (slotPlaces r.type.fields r.slots) = some path := by
  cases h with
  | otherType hother => exact absurd hroot hother
  | inside _ hpath => exact hpath

theorem type_eq_root {r : Record} (hr : c.Typed r.toValue) (h : r.type.name = c.schema.root.name) :
    r.type = c.schema.root := by
  obtain ⟨ht, -, -⟩ := typed_record_iff.mp hr
  rw [h, c.type?_root] at ht
  exact (Option.some.inj ht).symm

theorem encode_otherType {r : Record} (hr : c.Typed r.toValue) (hroot : r.type ≠ c.schema.root) :
    ∃ cause, c.encode (some r) = .error (.error ⟨.invalid, c.schema.root.name, [], cause⟩) := by
  have hname : r.type.name ≠ c.schema.root.name := fun hname => hroot (type_eq_root hr hname)
  have hw : c.writable? c.schema.root.name r.type r.slots = none := by
    simp [writable?, c.type?_root, hname]
  simp only [encode, encodeTo, encodeType, encodeRecord, hw, refuseRecord]
  exact ⟨_, rfl⟩

/-- How a lenient codec writes a root record into the memory. -/
theorem encode_root (hl : c.schema.Linked) (hlenient : c.options.lenient = true) {r : Record}
    (hr : c.Typed r.toValue) (hroot : r.type = c.schema.root) :
    (∃ bytes, c.encode (some r) = .ok bytes ∧ c.Shaped r) ∨
      ∃ e, c.encode (some r) = .error (.error e) ∧ e.kind = .invalid ∧
        firstWrong? (slotPlaces r.type.fields r.slots) = some e.path := by
  have hreport := reports_encodeType hl hr .memory none
  rw [hroot] at hreport
  unfold encode encodeTo
  generalize c.encodeType .memory c.schema.root.name none (some r) = x at hreport
  cases hreport with
  | written hnone =>
    rw [← hroot] at hnone
    exact .inl ⟨_, rfl, (shaped_iff hr).mpr hnone⟩
  | refused hkind _ hpath => exact .inr ⟨_, rfl, hkind, hroot ▸ hpath⟩
  | stopped hwhy _ => exact absurd rfl (hwhy hlenient)

theorem encode_lenient (hl : c.schema.Linked) (hlenient : c.options.lenient = true)
    (r : Option Record) (hr : ∀ q, r = some q → c.Typed q.toValue) :
    ((∃ bytes, c.encode r = .ok bytes) ↔ ∃ q, r = some q ∧ q.type = c.schema.root ∧ c.Shaped q) ∧
      ∀ stop, c.encode r = .error stop →
        ∃ e, stop = .error e ∧ e.kind = .invalid ∧ c.FirstWrong r e.path := by
  cases r with
  | none =>
    have hnone : ∃ cause, c.encode none =
        .error (.error ⟨.invalid, c.schema.root.name, [], cause⟩) := ⟨_, rfl⟩
    obtain ⟨cause, hcause⟩ := hnone
    rw [hcause]
    refine ⟨by simp, ?_⟩
    rintro stop ⟨⟩
    exact ⟨_, rfl, rfl, .nothing⟩
  | some q =>
    have hq := hr q rfl
    by_cases hroot : q.type = c.schema.root
    · rcases encode_root hl hlenient hq hroot with ⟨bytes, hbytes, hshaped⟩ | ⟨e, he, hkind, hpath⟩
      · rw [hbytes]
        refine ⟨by simp [hroot, hshaped], ?_⟩
        rintro e ⟨⟩
      · have hnot : ¬c.Shaped q := by simp [shaped_iff hq, hpath]
        rw [he]
        refine ⟨by simp [hnot], ?_⟩
        rintro stop ⟨⟩
        exact ⟨e, rfl, hkind, .inside hroot hpath⟩
    · obtain ⟨cause, hcause⟩ := encode_otherType hq hroot
      rw [hcause]
      refine ⟨by simp [hroot], ?_⟩
      rintro stop ⟨⟩
      exact ⟨_, rfl, rfl, .otherType hroot⟩

variable (c) in
/-- No value of the record is refused, wherever the record is written and in whatever context. An
error of that kind can only be the sink's own, so a sink that gives none, as the memory does, never
sees one. -/
def NeverRefuses (r : Record) : Prop :=
  ∀ sink context e out, c.encodeType sink r.type.name context (some r) = .failed (.error e) out →
    e.kind = .invalid → sink.Misleads e.cause

theorem Shaped.neverRefuses (hl : c.schema.Linked) {r : Record} (hr : c.Shaped r) :
    c.NeverRefuses r := by
  intro sink context e out h
  have hreport := reports_encodeType hl hr.typed sink context
  rw [h, (shaped_iff hr.typed).mp hr] at hreport
  cases hreport with
  | refused _ _ hpath => cases hpath
  | stopped _ hmisleads => exact hmisleads e rfl

end Codec

end Savefile
