import Savefile.Proofs.Result
import Savefile.Proofs.RoundTrip
import Savefile.Proofs.ScalarJson
import Savefile.Proofs.WellFormed

/-!
# Records and their JSON

The JSON of a record is read back as the record, except that a float that is not a number comes
back as the canonical one of its width. Writing follows the values and reading follows the fields,
so the two meet where every value has the shape of its field.
-/
namespace Savefile

namespace Value

mutual

/-- The value with canonical quiet floats in place of all others that are not numbers. -/
def quieted : Value → Value
  | .scalar s => .scalar s.quieted
  | .list items => .list (quietedItems items)
  | .record type slots => .record type (quietedItems slots)
  | v => v

/-- The values with canonical quiet floats in place of all others that are not numbers. -/
def quietedItems : List Value → List Value
  | [] => []
  | v :: vs => v.quieted :: quietedItems vs

end

mutual

/-- The scalars in a value. -/
def scalars : Value → List Scalar
  | .scalar s => [s]
  | .list items => itemScalars items
  | .record _ slots => itemScalars slots
  | _ => []

/-- The scalars in several values. -/
def itemScalars : List Value → List Scalar
  | [] => []
  | v :: vs => v.scalars ++ itemScalars vs

end

mutual

theorem quieted_equal_iff : ∀ v : Value,
    v.quieted.equal v = true ↔ ∀ s ∈ v.scalars, s.quieted = s
  | .null => by simp [quieted, equal, scalars]
  | .scalar s => by simp [quieted, equal, scalars]
  | .list items => by simpa [quieted, equal, scalars] using quietedItems_equal_iff items
  | .record t slots => by simpa [quieted, equal, scalars] using quietedItems_equal_iff slots
  | .foreign _ _ => by simp [quieted, equal, scalars]

theorem quietedItems_equal_iff : ∀ vs : List Value,
    equalItems (quietedItems vs) vs = true ↔ ∀ s ∈ itemScalars vs, s.quieted = s
  | [] => by simp [quietedItems, equalItems, itemScalars]
  | v :: vs => by
    have hv := quieted_equal_iff v
    have hvs := quietedItems_equal_iff vs
    simp only [quietedItems, equalItems, itemScalars, Bool.and_eq_true, List.forall_mem_append, hv,
      hvs]

end

theorem length_itemsJson (vs : List Value) : (itemsJson vs).length = vs.length := by
  induction vs with
  | nil => rfl
  | cons v vs ih => rw [itemsJson, List.length_cons, ih, List.length_cons]

/-- What a value of a field can look like: its list if `repeated`, else a single value. -/
inductive FitsAs (f : Field) : Bool → Value → Prop
  | absent : f.condition.isSome = true → FitsAs f false .null
  | scalar {s : Scalar} : f.type.kind = .primitive s.kind → FitsAs f false (.scalar s)
  | record {t : RecordType} {slots : List Value} :
      f.type.kind.isComposite = true → t.name = f.type.name → FitsAs f false (.record t slots)
  | list {items : List Value} : (∀ v ∈ items, FitsAs f false v) → FitsAs f true (.list items)

theorem fitsAs_of_elementMisfit? {f : Field} {v : Value} (h : v.elementMisfit? f = none) :
    FitsAs f false v := by
  unfold elementMisfit? at h
  split at h
  · rename_i habsent
    rw [Bool.and_eq_true] at habsent
    cases v with
    | null => exact .absent habsent.1
    | _ => cases habsent.2
  · rcases baseMisfit?_eq_none_iff.mp h with ⟨s, rfl, hkind⟩ | ⟨t, slots, rfl, hkind, hname⟩
    · exact .scalar hkind
    · exact .record hkind hname

theorem fitsAs_of_misfit? {f : Field} {v : Value} (h : v.misfit? f = none) :
    FitsAs f f.repetition.isSome v := by
  unfold misfit? at h
  split at h
  · rename_i hrepeated
    rw [hrepeated]
    cases v with
    | list items =>
      exact .list fun v hv => fitsAs_of_elementMisfit? ((itemsMisfit?_eq_none_iff 0).mp h v hv)
    | _ => cases h
  · rename_i hsingle
    rw [Bool.eq_false_iff.mpr hsingle]
    exact fitsAs_of_elementMisfit? h

end Value

section Members

theorem foldl_insertMember {α : Type} (pairs members : List (String × α))
    (h : ((members ++ pairs).map Prod.fst).Nodup) :
    pairs.foldl (fun members pair => insertMember pair.1 pair.2 members) members =
      members ++ pairs := by
  induction pairs generalizing members with
  | nil => simp
  | cons pair pairs ih =>
    rw [List.foldl_cons, Json.insertMember_of_fresh _ (Json.fresh_of_nodup h), ih]
    · simp
    · simpa using h

/-- Pairs with different keys are kept as they are. -/
theorem collectMembers_of_nodup {α : Type} {pairs : List (String × α)}
    (h : (pairs.map Prod.fst).Nodup) : collectMembers pairs = pairs :=
  foldl_insertMember pairs [] h

theorem Json.readableMembers_zip (keys : List String) {js : List Json} (h : ReadableItems js) :
    ReadableMembers (keys.zip js) := by
  induction js generalizing keys with
  | nil => simp [ReadableMembers]
  | cons j js ih =>
    cases keys with
    | nil => simp [ReadableMembers]
    | cons key keys =>
      unfold ReadableItems at h
      rw [List.zip_cons_cons, ReadableMembers]
      exact ⟨h.1, ih keys h.2⟩

theorem RecordType.isSome_go_iff {id : String} {fields : List Field} {i : Nat}
    {found : Option Nat} :
    (fieldIndex?.go id i found fields).isSome = true ↔
      found.isSome = true ∨ id ∈ fields.map (·.id) := by
  induction fields generalizing i found with
  | nil => simp [fieldIndex?.go]
  | cons f fs ih =>
    rw [fieldIndex?.go, ih]
    by_cases hf : f.id = id
    · simp [hf]
    · simp [hf, Ne.symm hf]

theorem RecordType.fieldIndex?_isSome_iff {t : RecordType} {id : String} :
    (t.fieldIndex? id).isSome = true ↔ id ∈ t.fields.map (·.id) := by
  rw [fieldIndex?, isSome_go_iff]
  simp

end Members

namespace Codec

variable {c : Codec}

theorem memberReaders_zip (c : Codec) (keys : List String) (js : List Json) :
    c.memberReaders (keys.zip js) = keys.zip (c.itemReaders js) := by
  induction js generalizing keys with
  | nil => simp [memberReaders, itemReaders]
  | cons j js ih =>
    cases keys with
    | nil => simp [memberReaders]
    | cons key keys => simp [memberReaders, itemReaders, ih]

/-- A value has the shape of its field. -/
def SlotShaped (f : Field) (_ : Frame) (v : Value) : Prop := v.misfit? f = none

/-- A record of a type of the codec in which every value has the shape of its field, at every
depth. -/
def Shaped (c : Codec) (r : Record) : Prop := c.Throughout SlotShaped none r.toValue

/-- The fields of each type have different identifiers. -/
def Distinct (c : Codec) : Prop :=
  ∀ t, c.type? t.name = some t → (t.fields.map (·.id)).Nodup

section Objects

variable {t : RecordType} {slots : List Value}

theorem keys_slots (h : slots.length = t.fields.length) :
    ((t.fields.map (·.id)).zip (Value.itemsJson slots)).map Prod.fst = t.fields.map (·.id) := by
  rw [List.map_fst_zip]
  rw [List.length_map, Value.length_itemsJson, h]

/-- A record is written as one member for each field. -/
theorem toJson_record (hc : c.Distinct) (ht : c.type? t.name = some t)
    (h : slots.length = t.fields.length) :
    (Value.record t slots).toJson =
      .object ((t.fields.map (·.id)).zip (Value.itemsJson slots)) := by
  rw [Value.toJson, collectMembers_of_nodup]
  rw [keys_slots h]
  exact hc t ht

end Objects

mutual

/-- The JSON of a value can be read. -/
theorem readable_toJson (hc : c.Distinct) {P : Field → Frame → Value → Prop} :
    ∀ (context : Option Context) (v : Value), c.Throughout P context v → v.toJson.Readable
  | _, .null, _ => by simp [Value.toJson, Json.Readable]
  | _, .scalar s, _ => s.readable_toJson
  | context, .list items, hv => by
    unfold Throughout at hv
    unfold Value.toJson Json.Readable
    exact readable_itemsJson hc context items hv
  | _, .record t slots, hv => by
    unfold Throughout at hv
    rw [toJson_record hc hv.1 hv.2.length_eq, Json.Readable, keys_slots hv.2.length_eq]
    have hslots := readable_slotsJson hc t t.fields [] _ slots hv.2
    exact ⟨hc t hv.1, Json.readableMembers_zip _ hslots⟩
  | _, .foreign _ _, _ => by simp [Value.toJson, Json.Readable]

theorem readable_itemsJson (hc : c.Distinct) {P : Field → Frame → Value → Prop} :
    ∀ (context : Option Context) (vs : List Value), c.ThroughoutItems P context vs →
      Json.ReadableItems (Value.itemsJson vs)
  | _, [], _ => by simp [Value.itemsJson, Json.ReadableItems]
  | context, v :: vs, hvs => by
    unfold ThroughoutItems at hvs
    rw [Value.itemsJson, Json.ReadableItems]
    exact ⟨readable_toJson hc context v hvs.1, readable_itemsJson hc context vs hvs.2⟩

theorem readable_slotsJson (hc : c.Distinct) {P : Field → Frame → Value → Prop} (t : RecordType) :
    ∀ (fields : List Field) (before : List Value) (fr : Frame) (vs : List Value),
      c.ThroughoutSlots P t fields before fr vs → Json.ReadableItems (Value.itemsJson vs)
  | _, _, _, [], _ => by simp [Value.itemsJson, Json.ReadableItems]
  | [], _, _, _ :: _, hvs => by simp [ThroughoutSlots] at hvs
  | f :: fs, before, fr, v :: vs, hvs => by
    simp only [ThroughoutSlots] at hvs
    rw [Value.itemsJson, Json.ReadableItems]
    exact ⟨readable_toJson hc _ v hvs.2.1, readable_slotsJson hc t fs _ _ vs hvs.2.2⟩

end

section Reading

variable {f : Field} {path : String}

theorem singleFromJson_scalar {s : Scalar} (h : f.type.kind = .primitive s.kind) :
    singleFromJson f path s.toJson = .ok (.scalar s.quieted) := by
  have hnull : s.toJson ≠ .null := by
    rcases s.toJson_leaf with ⟨b, hj⟩ | ⟨text, hj⟩ | ⟨name, hj⟩ <;> simp [hj]
  have hcomposite : ¬f.type.kind.isComposite = true := by simp [h, TypeKind.isComposite]
  unfold singleFromJson
  split
  · rename_i hj
    exact absurd hj hnull
  · rw [if_neg hcomposite, h, scalarFromJson_toJson, mapError_ok]

theorem jsonReader_scalar {s : Scalar} (h : f.type.kind = .primitive s.kind) :
    c.jsonReader s.toJson f false path = .ok (.scalar s.quieted) := by
  rw [← singleFromJson_scalar h]
  rcases s.toJson_leaf with ⟨b, hj⟩ | ⟨text, hj⟩ | ⟨name, hj⟩
  · rw [hj]
    rfl
  · rw [hj]
    rfl
  · rw [hj]
    rfl

theorem jsonReader_null (h : f.condition.isSome = true) :
    c.jsonReader .null f false path = .ok .null := by
  obtain ⟨cond, hcond⟩ := Option.isSome_iff_exists.mp h
  simp [jsonReader, singleFromJson, hcond]

theorem lookup_of_fresh {α : Type} {key : String} {value : α} {before after : List (String × α)}
    (h : key ∉ before.map Prod.fst) :
    (before ++ (key, value) :: after).lookup key = some value := by
  induction before with
  | nil => simp
  | cons pair before ih =>
    rw [List.map_cons, List.mem_cons, not_or] at h
    have hkey : (key == pair.1) = false := beq_eq_false_iff_ne.mpr h.1
    rw [List.cons_append, List.lookup_cons, hkey]
    exact ih h.2

theorem recordFromMembers_of_slots {t : RecordType} {readers : List JsonReader}
    {slots : List Value}
    (h : slotsFromMembers ((t.fields.map (·.id)).zip readers) path t.fields = .ok slots) :
    recordFromMembers t ((t.fields.map (·.id)).zip readers) path = .ok ⟨t, slots⟩ := by
  -- every key is one of the type's own
  have hknown : ((t.fields.map (·.id)).zip readers).find?
      (fun member => (t.fieldIndex? member.1).isNone) = none := by
    rw [List.find?_eq_none]
    intro member hmember
    have hindex := RecordType.fieldIndex?_isSome_iff.mpr (List.of_mem_zip hmember).1
    simp [Option.isSome_iff_ne_none.mp hindex]
  unfold recordFromMembers
  split
  · rename_i hfind
    cases hfind.symm.trans hknown
  · rw [h]
    rfl

mutual

/-- A value is read back from its JSON wherever it fits. -/
theorem jsonReader_toJson (hc : c.Distinct) :
    ∀ (context : Option Context) (v : Value), c.Throughout SlotShaped context v →
      ∀ (f : Field) (repeated : Bool) (path : String), v.FitsAs f repeated →
        c.jsonReader v.toJson f repeated path = .ok v.quieted
  | _, .null, _, f, repeated, path, hfit => by
    cases hfit with
    | absent hcond => exact jsonReader_null hcond
  | _, .scalar s, _, f, repeated, path, hfit => by
    cases hfit with
    | scalar hkind => exact jsonReader_scalar hkind
  | context, .list items, hv, f, repeated, path, hfit => by
    unfold Throughout at hv
    cases hfit with
    | list hitems =>
      have hread := itemsFromReaders_toJson hc context items hv f path 0 hitems
      rw [Value.toJson, jsonReader, Value.quieted]
      simp [hread, Except.map]
  | _, .record t slots, hv, f, repeated, path, hfit => by
    unfold Throughout at hv
    cases hfit with
    | record hkind hname =>
      have hslots := slotsFromMembers_toJson hc t path t.fields [] _ slots hv.2 [] (hc t hv.1)
      have hrecord := recordFromMembers_of_slots hslots
      have htype : c.type? f.type.name = some t := hname ▸ hv.1
      rw [toJson_record hc hv.1 hv.2.length_eq, jsonReader, memberReaders_zip, Value.quieted]
      simp [hkind, htype, hrecord, Except.map, Record.toValue]
  | _, .foreign _ _, _, f, repeated, path, hfit => by cases hfit

theorem itemsFromReaders_toJson (hc : c.Distinct) :
    ∀ (context : Option Context) (vs : List Value), c.ThroughoutItems SlotShaped context vs →
      ∀ (f : Field) (path : String) (i : Nat), (∀ v ∈ vs, v.FitsAs f false) →
        itemsFromReaders f path i (c.itemReaders (Value.itemsJson vs)) =
          .ok (Value.quietedItems vs)
  | _, [], _, _, _, _, _ => rfl
  | context, v :: vs, hvs, f, path, i, hfit => by
    unfold ThroughoutItems at hvs
    have hv := jsonReader_toJson hc context v hvs.1 f false (path ++ "[" ++ toString i ++ "]")
      (hfit v List.mem_cons_self)
    have hrest := itemsFromReaders_toJson hc context vs hvs.2 f path (i + 1)
      fun w hw => hfit w (List.mem_cons_of_mem v hw)
    rw [Value.itemsJson, itemReaders, itemsFromReaders, hv, ok_bind, hrest, ok_bind,
      Value.quietedItems]

/-- The values of the fields that are left are read from the members that stand after others. -/
theorem slotsFromMembers_toJson (hc : c.Distinct) (t : RecordType) (path : String) :
    ∀ (fields : List Field) (before : List Value) (fr : Frame) (vs : List Value),
      c.ThroughoutSlots SlotShaped t fields before fr vs →
      ∀ members : List (String × JsonReader),
        (members.map Prod.fst ++ fields.map (·.id)).Nodup →
        slotsFromMembers
            (members ++ (fields.map (·.id)).zip (c.itemReaders (Value.itemsJson vs))) path fields =
          .ok (Value.quietedItems vs)
  | _, _, _, [], hvs, members, _ => by
    unfold ThroughoutSlots at hvs
    rw [hvs]
    rfl
  | [], _, _, _ :: _, hvs, _, _ => by simp [ThroughoutSlots] at hvs
  | f :: fs, before, fr, v :: vs, hvs, members, hkeys => by
    simp only [ThroughoutSlots] at hvs
    obtain ⟨hshape, hv, hrest⟩ := hvs
    have hread := jsonReader_toJson hc _ v hv f f.repetition.isSome (path ++ "." ++ f.id)
      (Value.fitsAs_of_misfit? hshape)
    -- no member before has the key of this field, so its own is found
    have hfresh : f.id ∉ members.map Prod.fst := fun hmem =>
      (List.nodup_append.mp hkeys).2.2 f.id hmem f.id List.mem_cons_self rfl
    have hrest := slotsFromMembers_toJson hc t path fs _ _ vs hrest
      (members ++ [(f.id, c.jsonReader v.toJson)]) (by simpa using hkeys)
    rw [List.append_assoc, List.singleton_append] at hrest
    rw [Value.itemsJson, itemReaders, List.map_cons, List.zip_cons_cons, slotsFromMembers,
      lookup_of_fresh hfresh]
    simp only [hread, ok_bind, hrest, Value.quietedItems]

end

end Reading

end Codec

namespace Record

/-- The record with canonical quiet floats in place of all others that are not numbers. -/
def quieted (r : Record) : Record := ⟨r.type, Value.quietedItems r.slots⟩

def scalars (r : Record) : List Scalar := Value.itemScalars r.slots

theorem quieted_equal_iff (r : Record) :
    r.quieted.equal r = true ↔ ∀ s ∈ r.scalars, s.quieted = s := by
  rw [equal, quieted, beq_self_eq_true, Bool.true_and, scalars]
  exact Value.quietedItems_equal_iff r.slots

end Record

namespace Codec

variable {c : Codec} {r : Record}

theorem distinct_of_compile {s : Schema} {options : CodecOptions} (hs : s.Accepted)
    (hc : compile (some s) options = .ok c) : c.Distinct := by
  intro t ht
  rw [compile_ok hc] at ht
  exact (hs.wellFormed.fields t (mem_of_type? ht)).distinct

theorem recordOfJson_toJson (hc : c.Distinct) (hr : c.Shaped r) :
    c.recordOfJson r.type r.toJson = .ok r.quieted := by
  unfold Shaped Record.toValue Throughout at hr
  have hslots := slotsFromMembers_toJson hc r.type r.type.name r.type.fields [] _ r.slots hr.2 []
    (hc r.type hr.1)
  rw [Record.toJson, Record.toValue, toJson_record hc hr.1 hr.2.length_eq, recordOfJson,
    memberReaders_zip]
  exact recordFromMembers_of_slots hslots

/-- The JSON of a record is read back as the record, with canonical floats in place of all others
that are not numbers. It is the same record just if all these were canonical before. -/
theorem recordFromJson_toJson {s : Schema} {options : CodecOptions} (hs : s.Accepted)
    (hc : compile (some s) options = .ok c) (hr : c.Shaped r)
    (hdepth : r.toJson.nesting ≤ Json.depthLimit) :
    c.recordFromJson r.type (Text.encode r.toJson.compact.toList) = .ok r.quieted ∧
      (r.quieted.equal r = true ↔ ∀ s ∈ r.scalars, s.isNaN = true →
        s = .f32 0x7fc00000 ∨ s = .f64 0x7ff8000000000000) := by
  have hdistinct := distinct_of_compile hs hc
  constructor
  · have hreadable : r.toJson.Readable := readable_toJson hdistinct none r.toValue hr
    rw [recordFromJson, Json.parseBytes?_compact hreadable hdepth]
    exact recordOfJson_toJson hdistinct hr
  · rw [r.quieted_equal_iff]
    simp only [Scalar.quieted_eq_self_iff]

theorem Settled.shaped (h : c.Settled r) : c.Shaped r :=
  Throughout.imp (fun _ _ _ hslot _ _ => hslot.shape) none _ h.slots

theorem recordFromJson_toJson_extremes :
    ∃ s c, Schema.parse ("types:\n  P:\n  - id: x\n    type: f64\nitems:\n- id: n\n" ++
        "  type: u8\n- id: u\n  type: u64\n- id: i\n  type: s64\n- id: z\n  type: f32\n" ++
        "- id: o\n  type: u16\n  if: n > 9\n- id: p\n  type: P\n  repeat: Count(n)\n" ++
        "- id: g\n  type: u8\n  if: n > 9\n  repeat: Count(n)").toUTF8.toList = .ok s ∧
      compile (some s) .strict = .ok c ∧ ∃ r : Record, c.Shaped r ∧ r.toJson.nesting = 3 ∧
        r.toJson.compact = "\x7b\"n\":3,\"u\":18446744073709551615," ++
          "\"i\":-9223372036854775808,\"z\":-0,\"o\":null,\"p\":[\x7b\"x\":\"NaN\"\x7d," ++
          "\x7b\"x\":\"-Inf\"\x7d,\x7b\"x\":0.1\x7d],\"g\":[null,null,null]\x7d" ∧
        c.recordFromJson r.type (Text.encode r.toJson.compact.toList) = .ok r.quieted ∧
        r.scalars.map Scalar.bits = [3, 0xffffffffffffffff, 0x8000000000000000, 0x80000000,
          0xfff0000000000001, 0xfff0000000000000, 0x3fb999999999999a] ∧
        r.quieted.scalars.map Scalar.bits = [3, 0xffffffffffffffff, 0x8000000000000000, 0x80000000,
          0x7ff8000000000000, 0xfff0000000000000, 0x3fb999999999999a] := by
  refine exists_of_parse (fun c => (c.decode [3, 255, 255, 255, 255, 255, 255, 255, 255,
      0, 0, 0, 0, 0, 0, 0, 128, 0, 0, 0, 128, 1, 0, 0, 0, 0, 0, 240, 255,
      0, 0, 0, 0, 0, 0, 240, 255, 154, 153, 153, 153, 153, 153, 185, 63]).toOption.map fun r =>
        (r.toJson.nesting, r.toJson.compact, r.scalars.map Scalar.bits,
          r.quieted.scalars.map Scalar.bits))
    (3, "\x7b\"n\":3,\"u\":18446744073709551615," ++
      "\"i\":-9223372036854775808,\"z\":-0,\"o\":null,\"p\":[\x7b\"x\":\"NaN\"\x7d," ++
      "\x7b\"x\":\"-Inf\"\x7d,\x7b\"x\":0.1\x7d],\"g\":[null,null,null]\x7d",
      [3, 0xffffffffffffffff, 0x8000000000000000, 0x80000000, 0xfff0000000000001,
        0xfff0000000000000, 0x3fb999999999999a],
      [3, 0xffffffffffffffff, 0x8000000000000000, 0x80000000, 0x7ff8000000000000,
        0xfff0000000000000, 0x3fb999999999999a])
    (by decide +kernel) ?_
  intro s c hs hc h
  obtain ⟨r, hr, h⟩ := Option.map_eq_some_iff.mp h
  simp only [Prod.mk.injEq] at h
  obtain ⟨hnesting, htext, hbits, hquieted⟩ := h
  have hshaped := (settled_of_decode (eq_ok_of_toOption hr)).shaped
  have hdepth : r.toJson.nesting ≤ Json.depthLimit := by
    rw [hnesting]
    decide
  have hread := (recordFromJson_toJson (.of_parse hs) hc hshaped hdepth).1
  exact ⟨r, hshaped, hnesting, htext, hread, hbits, hquieted⟩

end Codec

end Savefile
