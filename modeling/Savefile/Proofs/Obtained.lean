import Savefile.Codec.Zero
import Savefile.Proofs.Shape

/-!
# Records that a codec makes

A codec makes records in three ways: it reads them, it makes new ones, and it takes them from JSON.
Each way goes through the fields of the record's type and gives each a value of its shape, so all
these records are well shaped. Making new ones relies on the schema: a field that is not composite
has a scalar kind, or there would be no zero for it.
-/
namespace Savefile

namespace Schema

/-- Each field is composite or has a scalar kind. -/
def Assigned (fields : List Field) : Prop :=
  ∀ f ∈ fields, f.type.kind = .composite ∨ ∃ p, f.type.kind = .primitive p

theorem kind_ofName (name : String) : (TypeRef.ofName name).kind = .composite ∨
    ∃ p, (TypeRef.ofName name).kind = .primitive p := by
  unfold TypeRef.ofName
  split
  · rename_i p _
    exact .inr ⟨p, rfl⟩
  · exact .inl rfl

theorem Accepted.assigned {s : Schema} (h : s.Accepted) :
    ∀ t, t ∈ s.types ∨ t = s.root → Assigned t.fields := by
  refine h.forall_field ?_ ?_
  · intro _ path node f hf
    obtain ⟨id, base, condition, repetition, -, -, -, -, rfl⟩ := readField_ok hf
    exact kind_ofName base
  · intro i token f hf
    obtain ⟨t, p, id, repetition, -, -, -, -, rfl⟩ := tokenField_ok hf
    exact .inr ⟨p, rfl⟩

end Schema

namespace Codec

open Value

variable {c : Codec}

/-- A record that was read is well shaped, in whatever context it was read. -/
theorem shaped_of_decodeType {name : String} {context : Option Context} {s s' : Source} {r : Record}
    (h : c.decodeType name context s = .done r s') : c.Shaped r := by
  unfold decodeType at h
  cases hd : c.decodeRecord (c.depthLimit s.rest.length) name context s with
  | failed stop s₁ => simp [hd] at h
  | done r' s₁ =>
    simp only [hd, Pass.done.injEq] at h
    obtain ⟨-, hfits, -⟩ := decodeRecord_sound c _ name context s r' s₁ hd
    rw [h.1] at hfits
    have hshaped : c.Throughout SlotShaped context r.toValue :=
      Throughout.imp (fun _ _ _ hslot hv _ => (hslot.settled hv).shape) context _ hfits
    exact throughout_context _ context none hshaped

theorem shaped_record_of_slots {t : RecordType} {slots : List Value} {name : String}
    (ht : c.type? name = some t) (hslots : c.ShapedSlots t.fields slots) :
    c.Shaped ⟨t, slots⟩ := by
  apply shaped_record_iff.mpr
  rw [type?_name ht]
  exact ⟨ht, hslots⟩

theorem shapedSlots_cons {f : Field} {fs : List Field} {v : Value} {vs : List Value}
    (hfits : v.FitsAs f f.repetition.isSome) (hv : c.Throughout SlotShaped none v)
    (hvs : c.ShapedSlots fs vs) : c.ShapedSlots (f :: fs) (v :: vs) :=
  .cons ⟨misfit?_eq_none_iff.mpr hfits, hv⟩ hvs

section New

variable {nested : String → Except NewError Record}

/-- The value of a new field, given new records by type name. -/
inductive ZeroSlot (nested : String → Except NewError Record) (f : Field) : Value → Prop
  | scalar : f.repetition = none → f.condition = none → f.type.kind.isComposite = false →
      ZeroSlot nested f (zeroScalar f.type.kind)
  | record {r : Record} : f.repetition = none → f.condition = none →
      f.type.kind.isComposite = true → nested f.type.name = .ok r → ZeroSlot nested f r.toValue
  | absent {cond : Condition} : f.repetition = none → f.condition = some cond →
      ZeroSlot nested f .null
  | list {r : Repetition} : f.repetition = some r → ZeroSlot nested f (.list [])

theorem zeroSlots_cons_ok {f : Field} {fs : List Field} {vs : List Value}
    (h : zeroSlots nested (f :: fs) = .ok vs) :
    ∃ v vs', vs = v :: vs' ∧ ZeroSlot nested f v ∧ zeroSlots nested fs = .ok vs' := by
  unfold zeroSlots at h
  generalize hs : f.shape = shape at h
  cases (f.hasShape_iff shape).mpr hs with
  | primitive hr hc hk =>
    obtain ⟨v, hv, h⟩ := exists_of_bind_ok h
    obtain ⟨vs', hvs, h⟩ := exists_of_bind_ok h
    cases hv
    cases h
    exact ⟨_, vs', rfl, .scalar hr hc hk, hvs⟩
  | composite hr hc hk =>
    obtain ⟨v, hv, h⟩ := exists_of_bind_ok h
    obtain ⟨vs', hvs, h⟩ := exists_of_bind_ok h
    cases h
    obtain ⟨r, hnested, rfl⟩ := exists_of_map_ok hv
    exact ⟨_, vs', rfl, .record hr hc hk hnested, hvs⟩
  | conditional hr hc _ =>
    obtain ⟨v, hv, h⟩ := exists_of_bind_ok h
    obtain ⟨vs', hvs, h⟩ := exists_of_bind_ok h
    cases hv
    cases h
    obtain ⟨cond, hc⟩ := Option.isSome_iff_exists.mp hc
    exact ⟨_, vs', rfl, .absent hr hc, hvs⟩
  | repeated hr _ =>
    obtain ⟨v, hv, h⟩ := exists_of_bind_ok h
    obtain ⟨vs', hvs, h⟩ := exists_of_bind_ok h
    cases hv
    cases h
    obtain ⟨r, hr⟩ := Option.isSome_iff_exists.mp hr
    exact ⟨_, vs', rfl, .list hr, hvs⟩

theorem zeroWithin_succ_ok {depth : Nat} {outer : List String} {name : String} {r : Record}
    (h : c.zeroWithin (depth + 1) outer name = .ok r) :
    c.type? name = some r.type ∧ r.type.name ∉ outer ∧
      zeroSlots (c.zeroWithin depth (r.type.name :: outer)) r.type.fields = .ok r.slots := by
  unfold zeroWithin at h
  split at h
  · cases h
  · rename_i t ht
    split at h
    · cases h
    · rename_i houter
      obtain ⟨slots, hslots, rfl⟩ := exists_of_map_ok h
      exact ⟨ht, by simpa using houter, hslots⟩

theorem ZeroSlot.shaped {f : Field} {v : Value} (h : ZeroSlot nested f v)
    (hf : f.type.kind = .composite ∨ ∃ p, f.type.kind = .primitive p)
    (hnested : ∀ name r, nested name = .ok r → r.type.name = name ∧ c.Shaped r) :
    v.FitsAs f f.repetition.isSome ∧ c.Throughout SlotShaped none v := by
  cases h with
  | scalar hr _ hk =>
    rcases hf with hcomposite | ⟨p, hp⟩
    · rw [hcomposite] at hk
      cases hk
    · rw [hr, hp]
      exact ⟨.scalar (by rw [hp, Scalar.zero, Scalar.kind_ofBits]), by simp [zeroScalar, Throughout]⟩
  | @record r hr _ hk hnew =>
    obtain ⟨hname, hshaped⟩ := hnested f.type.name r hnew
    rw [hr]
    exact ⟨.record hk hname, hshaped⟩
  | absent hr hc =>
    rw [hr]
    exact ⟨.absent (by simp [hc]), by simp [Throughout]⟩
  | list hr =>
    rw [hr]
    exact ⟨.list (by simp), by simp [Throughout, ThroughoutItems]⟩

theorem shapedSlots_zeroSlots {fields : List Field} {vs : List Value}
    (hassigned : Schema.Assigned fields)
    (hnested : ∀ name r, nested name = .ok r → r.type.name = name ∧ c.Shaped r)
    (h : zeroSlots nested fields = .ok vs) : c.ShapedSlots fields vs := by
  induction fields generalizing vs with
  | nil =>
    cases h
    exact .nil
  | cons f fs ih =>
    obtain ⟨hf, hfs⟩ := List.forall_mem_cons.mp hassigned
    obtain ⟨v, vs', rfl, hv, hvs⟩ := zeroSlots_cons_ok h
    obtain ⟨hfits, hinside⟩ := hv.shaped hf hnested
    exact shapedSlots_cons hfits hinside (ih hfs hvs)

theorem shaped_of_zeroWithin
    (hassigned : ∀ name t, c.type? name = some t → Schema.Assigned t.fields) {depth : Nat}
    {outer : List String} {name : String} {r : Record}
    (h : c.zeroWithin depth outer name = .ok r) : r.type.name = name ∧ c.Shaped r := by
  induction depth generalizing outer name r with
  | zero => cases h
  | succ depth ih =>
    obtain ⟨ht, -, hslots⟩ := zeroWithin_succ_ok h
    refine ⟨type?_name ht, shaped_record_of_slots ht ?_⟩
    exact shapedSlots_zeroSlots (hassigned name r.type ht) (fun _ _ => ih) hslots

theorem shaped_of_newRecord {s : Schema} {options : CodecOptions} (hs : s.Accepted)
    (hc : compile (some s) options = .ok c) {name : String} {r : Record}
    (h : c.newRecord name = .ok r) : c.Shaped r := by
  refine (shaped_of_zeroWithin ?_ h).2
  intro name t ht
  have hmem := mem_of_type? ht
  rw [compile_ok hc] at hmem
  exact hs.assigned t hmem

end New

section FromJson

theorem kind_of_readNumber {p : Primitive} {text : String} {x : Scalar}
    (h : p.readNumber text = .ok x) : x.kind = p := by
  unfold Primitive.readNumber at h
  dsimp only at h
  split at h
  · obtain ⟨n, -, rfl⟩ := exists_of_map_ok h
    exact Scalar.kind_ofBits p n
  · split at h
    · obtain ⟨n, -, rfl⟩ := exists_of_map_ok h
      exact Scalar.kind_ofBits p _
    · split at h
      · obtain ⟨n, -, rfl⟩ := exists_of_map_ok h
        exact Scalar.kind_ofBits p n
      · cases h

/-- The ways to take a scalar from a JSON value: as a truth value, as a number, or as the name of a
float. -/
theorem scalarFromJson_cases {kind : TypeKind} {j : Json} {v : Value}
    (h : scalarFromJson kind j = .ok v) :
    (∃ b, kind = .primitive .bool ∧ j = .bool b ∧ v = .scalar (.bool b)) ∨
      (∃ p text x, kind = .primitive p ∧ j = .number text ∧ p.readNumber text = .ok x ∧
        v = .scalar x) ∨
      ∃ p format name bits, kind = .primitive p ∧ p.floatFormat? = some format ∧
        j = .string name ∧ Primitive.readFloatName? format name = some bits ∧
        v = .scalar (.ofBits p bits) := by
  unfold scalarFromJson at h
  split at h
  · split at h
    · cases h
      exact .inl ⟨_, rfl, rfl, rfl⟩
    · cases h
  · rename_i p _
    split at h
    · rename_i name format hformat
      split at h
      · rename_i bits hbits
        cases h
        exact .inr (.inr ⟨p, format, name, bits, rfl, hformat, rfl, hbits, rfl⟩)
      · cases h
    · split at h
      · rename_i x hx
        cases h
        exact .inr (.inl ⟨p, _, x, rfl, rfl, hx, rfl⟩)
      · cases h
    · cases h
  · split at h
    · cases h
    · cases h

theorem scalarFromJson_ok {kind : TypeKind} {j : Json} {v : Value}
    (h : scalarFromJson kind j = .ok v) : ∃ x, v = .scalar x ∧ kind = .primitive x.kind := by
  rcases scalarFromJson_cases h with ⟨b, rfl, -, rfl⟩ | ⟨p, text, x, rfl, -, hx, rfl⟩ |
    ⟨p, format, name, bits, rfl, -, -, -, rfl⟩
  · exact ⟨_, rfl, rfl⟩
  · exact ⟨x, rfl, by rw [kind_of_readNumber hx]⟩
  · exact ⟨_, rfl, by rw [Scalar.kind_ofBits]⟩

/-- What the reader makes of a field fits the field and is well shaped inside. -/
def ReadsShaped (c : Codec) (read : JsonReader) : Prop :=
  ∀ f listed path v, read f listed path = .ok v →
    v.FitsAs f listed ∧ c.Throughout SlotShaped none v

theorem singleFromJson_shaped {f : Field} {path : String} {j : Json} {v : Value}
    (h : singleFromJson f path j = .ok v) :
    v.FitsAs f false ∧ c.Throughout SlotShaped none v := by
  unfold singleFromJson at h
  split at h
  · rename_i cond hc
    cases h
    exact ⟨.absent (by simp [hc]), by simp [Throughout]⟩
  · split at h
    · cases h
    · obtain ⟨x, rfl, hkind⟩ := scalarFromJson_ok (mapError_ok_iff.mp h)
      exact ⟨.scalar hkind, by simp [Throughout]⟩

/-- A reader that takes no lists and no records. -/
theorem readsShaped_leaf {read : JsonReader} {j : Json}
    (hread : ∀ f listed path, read f listed path =
      if listed then .error (.located path (.notArray j.representation))
      else singleFromJson f path j) : c.ReadsShaped read := by
  intro f listed path v h
  rw [hread] at h
  cases listed with
  | true => cases h
  | false => exact singleFromJson_shaped h

theorem itemsFromReaders_shaped {f : Field} {path : String} {readers : List JsonReader} {i : Nat}
    {vs : List Value} (hreaders : ∀ read ∈ readers, c.ReadsShaped read)
    (h : itemsFromReaders f path i readers = .ok vs) :
    ∀ v ∈ vs, v.FitsAs f false ∧ c.Throughout SlotShaped none v := by
  induction readers generalizing i vs with
  | nil =>
    cases h
    simp
  | cons read reads ih =>
    rw [List.forall_mem_cons] at hreaders
    unfold itemsFromReaders at h
    obtain ⟨v, hv, h⟩ := exists_of_bind_ok h
    obtain ⟨vs', hvs, h⟩ := exists_of_bind_ok h
    cases h
    exact List.forall_mem_cons.mpr ⟨hreaders.1 _ _ _ _ hv, ih hreaders.2 hvs⟩

theorem mem_of_lookup {α : Type} {key : String} {value : α} {members : List (String × α)}
    (h : members.lookup key = some value) : (key, value) ∈ members := by
  obtain ⟨before, after, rfl, -⟩ := List.lookup_eq_some_iff.mp h
  exact List.mem_append_right before List.mem_cons_self

theorem slotsFromMembers_shaped {members : List (String × JsonReader)} {path : String}
    {fields : List Field} {vs : List Value}
    (hmembers : ∀ member ∈ members, c.ReadsShaped member.2)
    (h : slotsFromMembers members path fields = .ok vs) : c.ShapedSlots fields vs := by
  induction fields generalizing vs with
  | nil =>
    cases h
    exact .nil
  | cons f fs ih =>
    unfold slotsFromMembers at h
    split at h
    · rename_i read hread
      obtain ⟨v, hv, h⟩ := exists_of_bind_ok h
      obtain ⟨vs', hvs, h⟩ := exists_of_bind_ok h
      cases h
      obtain ⟨hfits, hinside⟩ := hmembers _ (mem_of_lookup hread) _ _ _ _ hv
      exact shapedSlots_cons hfits hinside (ih hvs)
    · split at h
      · rename_i habsent
        obtain ⟨v, hv, h⟩ := exists_of_bind_ok h
        obtain ⟨vs', hvs, h⟩ := exists_of_bind_ok h
        cases hv
        cases h
        rw [Bool.and_eq_true, Option.isNone_iff_eq_none] at habsent
        refine shapedSlots_cons ?_ (by simp [Throughout]) (ih hvs)
        rw [habsent.2]
        exact .absent habsent.1
      · cases h

theorem recordFromMembers_shaped {name : String} {t : RecordType} (ht : c.type? name = some t)
    {members : List (String × JsonReader)} {path : String} {r : Record}
    (hmembers : ∀ member ∈ members, c.ReadsShaped member.2)
    (h : recordFromMembers t members path = .ok r) : r.type = t ∧ c.Shaped r := by
  unfold recordFromMembers at h
  split at h
  · cases h
  · obtain ⟨slots, hslots, rfl⟩ := exists_of_map_ok h
    exact ⟨rfl, shaped_record_of_slots ht (slotsFromMembers_shaped hmembers hslots)⟩

mutual

theorem jsonReader_shaped : ∀ j : Json, c.ReadsShaped (c.jsonReader j)
  | .array items => by
    intro f listed path v h
    unfold jsonReader at h
    dsimp only at h
    cases listed with
    | true =>
      obtain ⟨vs, hvs, rfl⟩ := exists_of_map_ok h
      have hitems := itemsFromReaders_shaped (itemReaders_shaped items) hvs
      refine ⟨.list fun v hv => (hitems v hv).1, ?_⟩
      rw [Throughout, throughoutItems_iff]
      exact fun v hv => (hitems v hv).2
    | false => exact singleFromJson_shaped h
  | .object members => by
    intro f listed path v h
    unfold jsonReader at h
    dsimp only at h
    cases listed with
    | true => cases h
    | false =>
      rw [if_neg (by simp)] at h
      split at h
      · rename_i hcomposite
        split at h
        · rename_i t ht
          obtain ⟨r, hr, rfl⟩ := exists_of_map_ok h
          obtain ⟨rfl, hshaped⟩ := recordFromMembers_shaped ht (memberReaders_shaped members) hr
          exact ⟨.record hcomposite (type?_name ht), hshaped⟩
        · cases h
      · exact singleFromJson_shaped h
  | .null => readsShaped_leaf (j := .null) fun _ _ _ => rfl
  | .bool b => readsShaped_leaf (j := .bool b) fun _ _ _ => rfl
  | .number text => readsShaped_leaf (j := .number text) fun _ _ _ => rfl
  | .string text => readsShaped_leaf (j := .string text) fun _ _ _ => rfl

theorem itemReaders_shaped : ∀ js : List Json, ∀ read ∈ c.itemReaders js, c.ReadsShaped read
  | [] => by simp [itemReaders]
  | j :: js => by
    rw [itemReaders, List.forall_mem_cons]
    exact ⟨jsonReader_shaped j, itemReaders_shaped js⟩

theorem memberReaders_shaped : ∀ members : List (String × Json),
    ∀ member ∈ c.memberReaders members, c.ReadsShaped member.2
  | [] => by simp [memberReaders]
  | (key, j) :: rest => by
    rw [memberReaders, List.forall_mem_cons]
    exact ⟨jsonReader_shaped j, memberReaders_shaped rest⟩

end

theorem shaped_of_recordFromJson {name : String} {t : RecordType} (ht : c.type? name = some t)
    {bytes : List UInt8} {r : Record} (h : c.recordFromJson t bytes = .ok r) : c.Shaped r := by
  unfold recordFromJson at h
  split at h
  · cases h
  · unfold recordOfJson at h
    split at h
    · exact (recordFromMembers_shaped ht (memberReaders_shaped _) h).2
    · cases h

end FromJson

/-- A record that came from a codec: it was read, it is new, or it was taken from JSON. -/
inductive Obtained (c : Codec) (r : Record) : Prop
  | read {name : String} {context : Option Context} {s s' : Source} :
      c.decodeType name context s = .done r s' → Obtained c r
  | new {name : String} : c.newRecord name = .ok r → Obtained c r
  | json {name : String} {t : RecordType} {bytes : List UInt8} :
      c.type? name = some t → c.recordFromJson t bytes = .ok r → Obtained c r

theorem Obtained.shaped {s : Schema} {options : CodecOptions} (hs : s.Accepted)
    (hc : compile (some s) options = .ok c) {r : Record} (h : c.Obtained r) : c.Shaped r := by
  cases h with
  | read h => exact shaped_of_decodeType h
  | new h => exact shaped_of_newRecord hs hc h
  | json ht h => exact shaped_of_recordFromJson ht h

end Codec

end Savefile
