import Savefile.Proofs.JsonScalars

/-!
# The JSON trees of a type

Which JSON values are taken for a type is a matter of their shape and their numbers: the keys of an
object are identifiers of fields, only a field that is conditional and not repeated may be missing,
each item of an array stands for a single value, and each scalar is one of its kind. All these
values are taken, and no others, and every whole number becomes exactly the number of its text.
-/
namespace Savefile

open Decimal (BinaryFormat Numeral digitsValue exponentFrom)

namespace Codec

mutual

/-- The JSON values that stand for a value of a field: for its list if `listed`, else for a single
value. -/
inductive FieldTree (c : Codec) (fits : Numeral → BinaryFormat → Prop) : Field → Bool → Json → Prop
  | absent {f : Field} : f.condition.isSome = true → FieldTree c fits f false .null
  | scalar {f : Field} {p : Primitive} {j : Json} : f.type.kind = .primitive p →
      ScalarTree fits p j → FieldTree c fits f false j
  | record {f : Field} {t : RecordType} {j : Json} : f.type.kind.isComposite = true →
      c.type? f.type.name = some t → TypeTree c fits t j → FieldTree c fits f false j
  | list {f : Field} {items : List Json} :
      (∀ j ∈ items, FieldTree c fits f false j) → FieldTree c fits f true (.array items)

/-- The JSON values that stand for a record of a type. -/
inductive TypeTree (c : Codec) (fits : Numeral → BinaryFormat → Prop) : RecordType → Json → Prop
  | object {t : RecordType} {members : List (String × Json)} :
      (∀ member ∈ members, member.1 ∈ t.fields.map (·.id)) →
      (∀ f ∈ t.fields, members.lookup f.id = none →
        f.condition.isSome = true ∧ f.repetition = none) →
      (∀ f ∈ t.fields, ∀ j, members.lookup f.id = some j →
        FieldTree c fits f f.repetition.isSome j) →
      TypeTree c fits t (.object members)

end

/-- Every whole number in a value is the number of its text in a JSON value, and what is missing in
the JSON value is absent. -/
inductive KeepsNumbers : Json → Value → Prop
  | absent : KeepsNumbers .null .null
  | scalar {j : Json} {s : Scalar} :
      (∀ i, s.toInt? = some i → ∃ text negative n, j = .number text ∧
        Json.Spells text negative n ∧ n.IsWhole ∧ n.wholeValue negative = i) →
      KeepsNumbers j (.scalar s)
  | list {items : List Json} {vs : List Value} : items.length = vs.length →
      (∀ x ∈ items.zip vs, KeepsNumbers x.1 x.2) → KeepsNumbers (.array items) (.list vs)
  | record {members : List (String × Json)} {t : RecordType} {slots : List Value} :
      t.fields.length = slots.length →
      (∀ x ∈ t.fields.zip slots, ∀ j, members.lookup x.1.id = some j → KeepsNumbers j x.2) →
      (∀ x ∈ t.fields.zip slots, members.lookup x.1.id = none → x.2 = .null) →
      KeepsNumbers (.object members) (.record t slots)

variable {c : Codec} {fits : Numeral → BinaryFormat → Prop} {j : Json}

/-- The JSON value is taken for just the fields that it stands for, and keeps its numbers. -/
structure Faithful (c : Codec) (fits : Numeral → BinaryFormat → Prop) (j : Json) : Prop where
  accepts : ∀ f listed path,
    (∃ v, c.jsonReader j f listed path = .ok v) ↔ c.FieldTree fits f listed j
  keeps : ∀ f listed path v, c.jsonReader j f listed path = .ok v → KeepsNumbers j v

section Leaves

variable {f : Field} {path : String}

theorem keepsNumbers_of_scalarFromJson {kind : TypeKind} {v : Value}
    (hj : ∀ text ∈ j.numbers, DecidedBy fits text) (h : scalarFromJson kind j = .ok v) :
    KeepsNumbers j v := by
  rcases scalarFromJson_cases h with ⟨b, -, -, rfl⟩ | ⟨p, text, x, -, rfl, hx, rfl⟩ |
    ⟨p, f, name, bits, -, hf, -, -, rfl⟩
  · exact .scalar (by simp [Scalar.toInt?])
  · refine .scalar fun i hi => ?_
    obtain ⟨negative, n, hspells⟩ := (hj text (by simp [Json.numbers])).spelled
    obtain ⟨hn, hvalue⟩ := Primitive.toInt?_of_readNumber hx hspells hi
    exact ⟨text, negative, n, rfl, hspells, hn, hvalue⟩
  · refine .scalar fun i hi => ?_
    rw [Scalar.toInt?_eq_none_of_floatFormat? (by rwa [Scalar.kind_ofBits])] at hi
    cases hi

theorem exists_singleFromJson_iff (hj : ∀ text ∈ j.numbers, DecidedBy fits text)
    (hshape : (∀ members, j ≠ .object members) ∨ ¬f.type.kind.isComposite = true) :
    (∃ v, singleFromJson f path j = .ok v) ↔ c.FieldTree fits f false j := by
  unfold singleFromJson
  split
  · rename_i cond hcond
    exact iff_of_true ⟨_, rfl⟩ (.absent (by simp [hcond]))
  · rename_i hpresent
    -- what is left is a value, so it has to be one of the field's type
    split
    · rename_i hcomposite
      refine iff_of_false (by simp) fun h => ?_
      cases h with
      | absent hcond =>
        obtain ⟨cond, hcond⟩ := Option.isSome_iff_exists.mp hcond
        exact hpresent cond hcond rfl
      | scalar hkind _ =>
        rw [hkind] at hcomposite
        cases hcomposite
      | record _ _ htree =>
        cases htree with
        | object => exact hshape.elim (fun h => h _ rfl) fun h => h hcomposite
    · rename_i hsimple
      simp only [mapError_ok_iff, exists_scalarFromJson_iff hj]
      constructor
      · rintro ⟨p, hkind, h⟩
        exact .scalar hkind h
      · intro h
        cases h with
        | absent hcond =>
          obtain ⟨cond, hcond⟩ := Option.isSome_iff_exists.mp hcond
          exact absurd rfl (hpresent cond hcond)
        | scalar hkind h => exact ⟨_, hkind, h⟩
        | record hcomposite _ _ => exact absurd hcomposite hsimple

theorem keepsNumbers_of_singleFromJson {v : Value}
    (hj : ∀ text ∈ j.numbers, DecidedBy fits text) (h : singleFromJson f path j = .ok v) :
    KeepsNumbers j v := by
  unfold singleFromJson at h
  split at h
  · cases h
    exact .absent
  · split at h
    · cases h
    · exact keepsNumbers_of_scalarFromJson hj (mapError_ok_iff.mp h)

/-- A JSON value that is no array and no object. -/
theorem faithful_leaf (hj : ∀ text ∈ j.numbers, DecidedBy fits text)
    (harray : ∀ items, j ≠ .array items) (hobject : ∀ members, j ≠ .object members)
    (hread : ∀ f listed path, c.jsonReader j f listed path =
      if listed then .error (.located path (.notArray j.representation))
      else singleFromJson f path j) : c.Faithful fits j := by
  constructor
  · intro f listed path
    rw [hread]
    cases listed with
    | true =>
      refine iff_of_false (by simp) fun h => ?_
      cases h with
      | list => exact harray _ rfl
    | false => exact exists_singleFromJson_iff hj (.inl hobject)
  · intro f listed path v h
    rw [hread] at h
    cases listed with
    | true => cases h
    | false => exact keepsNumbers_of_singleFromJson hj h

end Leaves

section Lists

variable {f : Field} {path : String} {i : Nat} {js : List Json}

theorem exists_itemsFromReaders_iff (hjs : ∀ j ∈ js, c.Faithful fits j) (path : String) (i : Nat) :
    (∃ vs, itemsFromReaders f path i (c.itemReaders js) = .ok vs) ↔
      ∀ j ∈ js, c.FieldTree fits f false j := by
  induction js generalizing i with
  | nil => simp [itemReaders, itemsFromReaders]
  | cons j js ih =>
    obtain ⟨hj, hjs⟩ := List.forall_mem_cons.mp hjs
    rw [itemReaders, itemsFromReaders, List.forall_mem_cons, ← ih hjs (i := i + 1),
      ← hj.accepts f false (path ++ "[" ++ toString i ++ "]")]
    constructor
    · rintro ⟨vs, h⟩
      obtain ⟨v, hv, h⟩ := exists_of_bind_ok h
      obtain ⟨vs', hvs, -⟩ := exists_of_bind_ok h
      exact ⟨⟨v, hv⟩, vs', hvs⟩
    · rintro ⟨⟨v, hv⟩, vs, hvs⟩
      exact ⟨v :: vs, by rw [hv, hvs]; rfl⟩

theorem keepsNumbers_of_itemsFromReaders {vs : List Value} (hjs : ∀ j ∈ js, c.Faithful fits j)
    (h : itemsFromReaders f path i (c.itemReaders js) = .ok vs) :
    js.length = vs.length ∧ ∀ x ∈ js.zip vs, KeepsNumbers x.1 x.2 := by
  induction js generalizing i vs with
  | nil =>
    cases h
    simp
  | cons j js ih =>
    obtain ⟨hj, hjs⟩ := List.forall_mem_cons.mp hjs
    rw [itemReaders, itemsFromReaders] at h
    obtain ⟨v, hv, h⟩ := exists_of_bind_ok h
    obtain ⟨vs', hvs, h⟩ := exists_of_bind_ok h
    cases h
    obtain ⟨hlength, hkeeps⟩ := ih hjs hvs
    refine ⟨by simp [hlength], ?_⟩
    rw [List.zip_cons_cons, List.forall_mem_cons]
    exact ⟨hj.keeps _ _ _ _ hv, hkeeps⟩

end Lists

section Records

variable {members : List (String × Json)} {t : RecordType} {path : String} {f : Field}
  {fields : List Field}

theorem memberReaders_eq_map (c : Codec) (members : List (String × Json)) :
    c.memberReaders members = members.map fun m => (m.1, c.jsonReader m.2) := by
  induction members with
  | nil => rfl
  | cons m ms ih => rw [memberReaders, ih, List.map_cons]

theorem lookup_memberReaders (c : Codec) (members : List (String × Json)) (id : String) :
    (c.memberReaders members).lookup id = (members.lookup id).map c.jsonReader := by
  induction members with
  | nil => rfl
  | cons m ms ih =>
    rw [memberReaders, List.lookup_cons, List.lookup_cons]
    split
    · rfl
    · exact ih

theorem slotsFromMembers_of_lookup {readers : List (String × JsonReader)} {read : JsonReader}
    (h : readers.lookup f.id = some read) :
    slotsFromMembers readers path (f :: fields) =
      (read f f.repetition.isSome (path ++ "." ++ f.id) >>= fun v =>
        slotsFromMembers readers path fields >>= fun vs => .ok (v :: vs)) := by
  rw [slotsFromMembers, h]

theorem slotsFromMembers_of_missing {readers : List (String × JsonReader)}
    (h : readers.lookup f.id = none) (hf : f.condition.isSome = true ∧ f.repetition = none) :
    slotsFromMembers readers path (f :: fields) =
      (slotsFromMembers readers path fields >>= fun vs => .ok (.null :: vs)) := by
  rw [slotsFromMembers, h]
  simp [hf.1, hf.2]

theorem slotsFromMembers_missing_error {readers : List (String × JsonReader)} {vs : List Value}
    (h : readers.lookup f.id = none)
    (hvs : slotsFromMembers readers path (f :: fields) = .ok vs) :
    f.condition.isSome = true ∧ f.repetition = none := by
  rw [slotsFromMembers, h] at hvs
  by_contra hf
  have hf : ¬(f.condition.isSome && f.repetition.isNone) = true := by
    simpa using hf
  simp [hf] at hvs

/-- What the members of an object say about one field. -/
def SlotTree (c : Codec) (fits : Numeral → BinaryFormat → Prop)
    (members : List (String × Json)) (f : Field) : Prop :=
  (members.lookup f.id = none → f.condition.isSome = true ∧ f.repetition = none) ∧
    ∀ j, members.lookup f.id = some j → c.FieldTree fits f f.repetition.isSome j

theorem exists_slotsFromMembers_iff (hmembers : ∀ m ∈ members, c.Faithful fits m.2)
    (path : String) :
    (∃ vs, slotsFromMembers (c.memberReaders members) path fields = .ok vs) ↔
      ∀ f ∈ fields, c.SlotTree fits members f := by
  induction fields with
  | nil => simp [slotsFromMembers]
  | cons f fs ih =>
    rw [List.forall_mem_cons, ← ih]
    have hlookup := lookup_memberReaders c members f.id
    rcases hj : members.lookup f.id with _ | j
    · rw [hj, Option.map_none] at hlookup
      constructor
      · rintro ⟨vs, h⟩
        have hf := slotsFromMembers_missing_error hlookup h
        rw [slotsFromMembers_of_missing hlookup hf] at h
        obtain ⟨vs', hvs, -⟩ := exists_of_bind_ok h
        exact ⟨⟨fun _ => hf, by simp [hj]⟩, vs', hvs⟩
      · rintro ⟨⟨hf, -⟩, vs, hvs⟩
        exact ⟨.null :: vs, by rw [slotsFromMembers_of_missing hlookup (hf hj), hvs]; rfl⟩
    · rw [hj, Option.map_some] at hlookup
      have hfaithful := hmembers _ (mem_of_lookup hj)
      rw [slotsFromMembers_of_lookup hlookup]
      constructor
      · rintro ⟨vs, h⟩
        obtain ⟨v, hv, h⟩ := exists_of_bind_ok h
        obtain ⟨vs', hvs, -⟩ := exists_of_bind_ok h
        refine ⟨⟨by simp [hj], fun j' hj' => ?_⟩, vs', hvs⟩
        obtain rfl : j = j' := Option.some.inj (hj.symm.trans hj')
        exact (hfaithful.accepts _ _ _).mp ⟨v, hv⟩
      · rintro ⟨⟨-, hf⟩, vs, hvs⟩
        obtain ⟨v, hv⟩ := (hfaithful.accepts _ _ (path ++ "." ++ f.id)).mpr (hf j hj)
        exact ⟨v :: vs, by rw [hv, hvs]; rfl⟩

theorem keepsNumbers_of_slotsFromMembers {vs : List Value}
    (hmembers : ∀ m ∈ members, c.Faithful fits m.2)
    (h : slotsFromMembers (c.memberReaders members) path fields = .ok vs) :
    fields.length = vs.length ∧ ∀ x ∈ fields.zip vs,
      (∀ j, members.lookup x.1.id = some j → KeepsNumbers j x.2) ∧
        (members.lookup x.1.id = none → x.2 = .null) := by
  induction fields generalizing vs with
  | nil =>
    cases h
    simp
  | cons f fs ih =>
    have hlookup := lookup_memberReaders c members f.id
    rcases hj : members.lookup f.id with _ | j
    · rw [hj, Option.map_none] at hlookup
      rw [slotsFromMembers_of_missing hlookup (slotsFromMembers_missing_error hlookup h)] at h
      obtain ⟨vs', hvs, h⟩ := exists_of_bind_ok h
      cases h
      obtain ⟨hlength, hkeeps⟩ := ih hvs
      refine ⟨by simp [hlength], ?_⟩
      rw [List.zip_cons_cons, List.forall_mem_cons]
      exact ⟨⟨by simp [hj], fun _ => rfl⟩, hkeeps⟩
    · rw [hj, Option.map_some] at hlookup
      rw [slotsFromMembers_of_lookup hlookup] at h
      obtain ⟨v, hv, h⟩ := exists_of_bind_ok h
      obtain ⟨vs', hvs, h⟩ := exists_of_bind_ok h
      cases h
      obtain ⟨hlength, hkeeps⟩ := ih hvs
      refine ⟨by simp [hlength], ?_⟩
      rw [List.zip_cons_cons, List.forall_mem_cons]
      refine ⟨⟨fun j' hj' => ?_, by simp [hj]⟩, hkeeps⟩
      obtain rfl : j = j' := Option.some.inj (hj.symm.trans hj')
      exact (hmembers _ (mem_of_lookup hj)).keeps _ _ _ _ hv

theorem typeTree_object_iff : c.TypeTree fits t (.object members) ↔
    (∀ m ∈ members, m.1 ∈ t.fields.map (·.id)) ∧ ∀ f ∈ t.fields, c.SlotTree fits members f := by
  constructor
  · intro h
    cases h with
    | object hknown hmissing hslots => exact ⟨hknown, fun f hf => ⟨hmissing f hf, hslots f hf⟩⟩
  · rintro ⟨hknown, hslots⟩
    exact .object hknown (fun f hf => (hslots f hf).1) fun f hf => (hslots f hf).2

theorem recordFromMembers_ok_iff {r : Record} :
    recordFromMembers t (c.memberReaders members) path = .ok r ↔
      (∀ m ∈ members, m.1 ∈ t.fields.map (·.id)) ∧
        ∃ slots, slotsFromMembers (c.memberReaders members) path t.fields = .ok slots ∧
          ⟨t, slots⟩ = r := by
  have hunknown (m : String × Json) :
      (t.fieldIndex? m.1).isNone = true ↔ m.1 ∉ t.fields.map (·.id) := by
    rw [← RecordType.fieldIndex?_isSome_iff]
    simp
  unfold recordFromMembers
  split
  · rename_i key read hfind
    have hmem := List.mem_of_find?_eq_some hfind
    have hnone := List.find?_some hfind
    rw [memberReaders_eq_map] at hmem
    obtain ⟨m, hm, heq⟩ := List.mem_map.mp hmem
    cases heq
    refine iff_of_false (by simp) fun h => ?_
    exact (hunknown m).mp hnone (h.1 m hm)
  · rename_i hfind
    rw [map_ok_iff]
    refine (and_iff_right fun m hm => ?_).symm
    have hmem : (m.1, c.jsonReader m.2) ∈ c.memberReaders members := by
      rw [memberReaders_eq_map]
      exact List.mem_map_of_mem hm
    exact not_not.mp (mt (hunknown m).mpr (List.find?_eq_none.mp hfind _ hmem))

theorem exists_recordFromMembers_iff (hmembers : ∀ m ∈ members, c.Faithful fits m.2)
    (path : String) :
    (∃ r, recordFromMembers t (c.memberReaders members) path = .ok r) ↔
      c.TypeTree fits t (.object members) := by
  rw [typeTree_object_iff, ← exists_slotsFromMembers_iff hmembers path]
  simp [recordFromMembers_ok_iff]

theorem keepsNumbers_of_recordFromMembers {r : Record}
    (hmembers : ∀ m ∈ members, c.Faithful fits m.2)
    (h : recordFromMembers t (c.memberReaders members) path = .ok r) :
    KeepsNumbers (.object members) r.toValue := by
  obtain ⟨-, slots, hslots, rfl⟩ := recordFromMembers_ok_iff.mp h
  obtain ⟨hlength, hkeeps⟩ := keepsNumbers_of_slotsFromMembers hmembers hslots
  exact .record hlength (fun x hx => (hkeeps x hx).1) fun x hx => (hkeeps x hx).2

end Records

section Trees

variable {f : Field} {path : String} {items : List Json} {members : List (String × Json)}

theorem faithful_array (hj : ∀ text ∈ (Json.array items).numbers, DecidedBy fits text)
    (hitems : ∀ j ∈ items, c.Faithful fits j) : c.Faithful fits (.array items) := by
  have hlisted (f : Field) (path : String) : c.jsonReader (.array items) f true path =
      (itemsFromReaders f path 0 (c.itemReaders items)).map .list := rfl
  have hsingle (f : Field) (path : String) : c.jsonReader (.array items) f false path =
      singleFromJson f path (.array items) := rfl
  constructor
  · intro f listed path
    cases listed with
    | true =>
      have hlist : c.FieldTree fits f true (.array items) ↔
          ∀ j ∈ items, c.FieldTree fits f false j := by
        constructor
        · intro h
          cases h with
          | list h => exact h
        · exact .list
      rw [hlist, ← exists_itemsFromReaders_iff hitems path 0, hlisted]
      simp [map_ok_iff]
    | false =>
      rw [hsingle]
      exact exists_singleFromJson_iff hj (.inl (by simp))
  · intro f listed path v h
    cases listed with
    | true =>
      rw [hlisted] at h
      obtain ⟨vs, hvs, rfl⟩ := exists_of_map_ok h
      obtain ⟨hlength, hkeeps⟩ := keepsNumbers_of_itemsFromReaders hitems hvs
      exact .list hlength hkeeps
    | false =>
      rw [hsingle] at h
      exact keepsNumbers_of_singleFromJson hj h

theorem jsonReader_composite {t : RecordType} (hf : f.type.kind.isComposite = true)
    (ht : c.type? f.type.name = some t) :
    c.jsonReader (.object members) f false path =
      (recordFromMembers t (c.memberReaders members) path).map Record.toValue := by
  unfold jsonReader
  dsimp only
  rw [if_neg Bool.false_ne_true, if_pos hf, ht]

theorem jsonReader_composite_ok {v : Value} (hf : f.type.kind.isComposite = true)
    (h : c.jsonReader (.object members) f false path = .ok v) :
    ∃ t, c.type? f.type.name = some t := by
  by_contra hnone
  have ht : c.type? f.type.name = none :=
    Option.eq_none_iff_forall_ne_some.mpr (not_exists.mp hnone)
  unfold jsonReader at h
  dsimp only at h
  rw [if_neg Bool.false_ne_true, if_pos hf, ht] at h
  cases h

theorem jsonReader_object_simple (hf : ¬f.type.kind.isComposite = true) :
    c.jsonReader (.object members) f false path = singleFromJson f path (.object members) := by
  unfold jsonReader
  dsimp only
  rw [if_neg Bool.false_ne_true, if_neg hf]

theorem exists_jsonReader_composite_iff (hmembers : ∀ m ∈ members, c.Faithful fits m.2)
    (hf : f.type.kind.isComposite = true) (path : String) :
    (∃ v, c.jsonReader (.object members) f false path = .ok v) ↔
      c.FieldTree fits f false (.object members) := by
  constructor
  · rintro ⟨v, h⟩
    obtain ⟨t, ht⟩ := jsonReader_composite_ok hf h
    rw [jsonReader_composite hf ht] at h
    obtain ⟨r, hr, -⟩ := exists_of_map_ok h
    exact .record hf ht ((exists_recordFromMembers_iff hmembers path).mp ⟨r, hr⟩)
  · intro h
    cases h with
    | scalar hkind _ =>
      rw [hkind] at hf
      cases hf
    | record _ ht htree =>
      obtain ⟨r, hr⟩ := (exists_recordFromMembers_iff hmembers path).mpr htree
      exact ⟨r.toValue, by rw [jsonReader_composite hf ht, hr]; rfl⟩

theorem faithful_object (hj : ∀ text ∈ (Json.object members).numbers, DecidedBy fits text)
    (hmembers : ∀ m ∈ members, c.Faithful fits m.2) : c.Faithful fits (.object members) := by
  constructor
  · intro f listed path
    cases listed with
    | true =>
      constructor
      · rintro ⟨v, h⟩
        cases h
      · rintro ⟨⟩
    | false =>
      by_cases hf : f.type.kind.isComposite = true
      · exact exists_jsonReader_composite_iff hmembers hf path
      · rw [jsonReader_object_simple hf]
        exact exists_singleFromJson_iff hj (.inr hf)
  · intro f listed path v h
    cases listed with
    | true => cases h
    | false =>
      by_cases hf : f.type.kind.isComposite = true
      · obtain ⟨t, ht⟩ := jsonReader_composite_ok hf h
        rw [jsonReader_composite hf ht] at h
        obtain ⟨r, hr, rfl⟩ := exists_of_map_ok h
        exact keepsNumbers_of_recordFromMembers hmembers hr
      · rw [jsonReader_object_simple hf] at h
        exact keepsNumbers_of_singleFromJson hj h

mutual

/-- Every JSON value whose numbers a rule decides is taken for just the fields that it stands for. -/
theorem faithful : ∀ j : Json, (∀ text ∈ j.numbers, DecidedBy fits text) → c.Faithful fits j
  | .null, hj => faithful_leaf hj (by simp) (by simp) fun _ _ _ => rfl
  | .bool _, hj => faithful_leaf hj (by simp) (by simp) fun _ _ _ => rfl
  | .number _, hj => faithful_leaf hj (by simp) (by simp) fun _ _ _ => rfl
  | .string _, hj => faithful_leaf hj (by simp) (by simp) fun _ _ _ => rfl
  | .array items, hj => faithful_array hj (faithful_items items (by rwa [Json.numbers] at hj))
  | .object members, hj =>
    faithful_object hj (faithful_members members (by rwa [Json.numbers] at hj))

theorem faithful_items : ∀ js : List Json, (∀ text ∈ Json.itemNumbers js, DecidedBy fits text) →
    ∀ j ∈ js, c.Faithful fits j
  | [], _ => by simp
  | j :: js, hjs => by
    rw [Json.itemNumbers, List.forall_mem_append] at hjs
    exact List.forall_mem_cons.mpr ⟨faithful j hjs.1, faithful_items js hjs.2⟩

theorem faithful_members : ∀ ms : List (String × Json),
    (∀ text ∈ Json.memberNumbers ms, DecidedBy fits text) → ∀ m ∈ ms, c.Faithful fits m.2
  | [], _ => by simp
  | (_, j) :: ms, hms => by
    rw [Json.memberNumbers, List.forall_mem_append] at hms
    exact List.forall_mem_cons.mpr ⟨faithful j hms.1, faithful_members ms hms.2⟩

end

theorem exists_recordOfJson_iff {t : RecordType}
    (hj : ∀ text ∈ j.numbers, DecidedBy fits text) :
    (∃ r, c.recordOfJson t j = .ok r) ↔ c.TypeTree fits t j := by
  cases j with
  | object members =>
    rw [Json.numbers] at hj
    exact exists_recordFromMembers_iff (faithful_members members hj) _
  | _ =>
    constructor
    · rintro ⟨r, h⟩
      cases h
    · rintro ⟨⟩

theorem keepsNumbers_of_recordOfJson {t : RecordType} {r : Record}
    (hj : ∀ text ∈ j.numbers, DecidedBy fits text) (h : c.recordOfJson t j = .ok r) :
    r.type = t ∧ KeepsNumbers j r.toValue := by
  cases j with
  | object members =>
    rw [Json.numbers] at hj
    obtain ⟨-, slots, -, rfl⟩ := recordFromMembers_ok_iff.mp h
    exact ⟨rfl, keepsNumbers_of_recordFromMembers (faithful_members members hj) h⟩
  | _ => cases h

end Trees

section Parsed

theorem decidedBy_fitsAsTaken {text : String} (h : Json.IsSpelled text) :
    DecidedBy Numeral.FitsAsTaken text := ⟨h, fun _ _ _ _ => Iff.rfl⟩

/-- The text of a number is not very long, and has not very many digits before the point. -/
def IsModerate (text : String) : Prop :=
  text.length ≤ 8000 ∧ ∀ negative n, Json.Spells text negative n → n.whole.length ≤ 800

theorem length_le_of_spells {text : String} {negative : Bool} {n : Numeral}
    (h : Json.Spells text negative n) : n.whole.length + n.fraction.length ≤ text.length := by
  obtain ⟨cs, hcs, htext⟩ := h
  have hlength := congrArg List.length htext
  rw [String.length_toList, List.length_append] at hlength
  have hdigits := hcs.length_le
  omega

theorem isModerate_of_length_le {text : String} (h : text.length ≤ 800) : IsModerate text := by
  refine ⟨by omega, fun negative n hspells => ?_⟩
  have hlength := length_le_of_spells hspells
  omega

theorem shortFor_of_floatFormat? {p : Primitive} {f : BinaryFormat} {n : Numeral}
    (hp : p.floatFormat? = some f) (hn : n.whole.length + n.fraction.length ≤ 8000)
    (hwhole : n.whole.length ≤ 800) : n.ShortFor f := by
  have hcap : Decimal.exponentCap = 10000 := rfl
  have hexponents : Nat.pow 2 (f.exponentBits - 1) ≤ 1024 := by
    cases p with
    | f32 | f64 =>
      cases hp
      decide
    | _ => cases hp
  exact ⟨by omega, hwhole⟩

/-- Whether a moderate number overflows is decided by its own value. -/
theorem decidedBy_fits {text : String} (h : Json.IsSpelled text) (hmoderate : IsModerate text) :
    DecidedBy Numeral.Fits text := by
  refine ⟨h, fun {negative n} hspells {p f} hf => ?_⟩
  have hlength := (length_le_of_spells hspells).trans hmoderate.1
  exact (shortFor_of_floatFormat? hf hlength (hmoderate.2 _ _ hspells)).fitsAsTaken_iff
    (Primitive.wide_of_floatFormat? hf)

theorem recordFromJson_of_parseBytes? {bytes : List UInt8} (c : Codec) (t : RecordType)
    (hj : Json.parseBytes? bytes = some j) :
    c.recordFromJson t bytes = c.recordOfJson t j := by
  rw [recordFromJson, hj]

/-- The numeral that has a one after some zeros behind the point, and a large exponent. -/
def farPoint (zeros : Nat) : Numeral where
  whole := ['0']
  fraction := List.replicate zeros '0' ++ ['1']
  exponent := some (false, "100000".toList)
  whole_digits := by simp
  whole_ne_nil := by simp
  leading := .inl rfl
  fraction_digits c hc := by
    rcases List.mem_append.mp hc with hc | hc
    · exact Decimal.isDigit_of_mem_zeros hc
    · rw [List.mem_singleton.mp hc]
      rfl
  exponent_digits := by
    rintro x ⟨⟩
    exact ⟨by simp, by simp⟩

theorem value_farPoint (zeros : Nat) (count : List Char → Nat) :
    ((farPoint zeros).scientificBy count).value =
      10 ^ ((count "100000".toList : Int) - (zeros + 1 : Nat)) := by
  have hzeros : (farPoint zeros).whole ++ (farPoint zeros).fraction =
      List.replicate (1 + zeros) '0' ++ ['1'] := by
    rw [List.replicate_add, List.append_assoc]
    rfl
  have hdigits : digitsValue ((farPoint zeros).whole ++ (farPoint zeros).fraction) = 1 := by
    rw [hzeros, Decimal.digitsValue_zeros_append]
    rfl
  have hexponent : (farPoint zeros).exponentBy count = count "100000".toList := rfl
  have hlength : (farPoint zeros).fraction.length = zeros + 1 := by
    simp [farPoint]
  rw [Numeral.scientificBy, Decimal.Scientific.value, hdigits, hexponent, hlength, Nat.cast_one,
    one_mul]

/-- Only five digits of the exponent are counted. -/
theorem taken_farPoint :
    ((farPoint 9999).counted.taken .double).value = 10 ^ (0 : Int) := by
  have hwhole : (farPoint 9999).whole.length ≤ Decimal.placeLimit := (by decide : 1 ≤ 800)
  rw [(farPoint 9999).taken_counted .double hwhole]
  exact value_farPoint 9999 (exponentFrom 0)

/-- The numeral that has a one and some zeros before the point, and a small exponent. -/
def manyPlaces (zeros : Nat) : Numeral :=
  { Numeral.ofNat (10 ^ zeros) with
    exponent := some (true, "800".toList)
    exponent_digits := by
      rintro x ⟨⟩
      exact ⟨by simp, by simp⟩ }

theorem digits_manyPlaces (zeros : Nat) : (manyPlaces zeros).scientific.digits = 10 ^ zeros := by
  simp [Numeral.scientific, manyPlaces, Numeral.ofNat, Decimal.digitsValue_digitChars]

theorem value_manyPlaces (zeros : Nat) :
    (manyPlaces zeros).scientific.value = 10 ^ (zeros - 800 : Int) := by
  have hexponent : (manyPlaces zeros).scientific.exponent = -800 := rfl
  rw [Decimal.Scientific.value, digits_manyPlaces, hexponent, Nat.cast_pow, Nat.cast_ofNat,
    ← zpow_natCast, ← zpow_add₀ (by norm_num), sub_eq_add_neg]

theorem exact_counted_manyPlaces (zeros : Nat) :
    (manyPlaces zeros).counted.exact = (manyPlaces zeros).scientific := by
  apply Numeral.scientificBy_exponentFrom
  rintro x ⟨⟩
  decide

/-- Only eight hundred places count, as the first digits do not tell the float. -/
theorem taken_manyPlaces :
    ((manyPlaces 2000).counted.taken .double).value = 10 ^ (-1 : Int) := by
  have hlost : (manyPlaces 2000).counted.lostPlaces = 1201 := by decide +kernel
  have hestimated : ¬(manyPlaces 2000).counted.isEstimated .double = true := by decide +kernel
  have hexponent : (manyPlaces 2000).scientific.exponent = -800 := rfl
  rw [Decimal.DecimalText.taken, hlost, if_neg (by decide), if_neg hestimated,
    exact_counted_manyPlaces, Decimal.Scientific.value, hexponent, digits_manyPlaces, Nat.cast_pow,
    Nat.cast_ofNat, ← zpow_natCast, ← zpow_add₀ (by norm_num)]
  norm_num

/-- The JSON value with one number. -/
def numberObject (n : Numeral) : Json := .object [("x", .number (String.ofList n.chars))]

theorem parseBytes?_numberObject (n : Numeral) :
    Json.parseBytes? (Text.encode (numberObject n).compact.toList) = some (numberObject n) := by
  apply Json.parseBytes?_compact
  · have hnumber : Json.IsNumber (String.ofList n.chars) := ⟨false, n, by simp [Numeral.sign]⟩
    simp [numberObject, Json.Readable, Json.ReadableMembers, hnumber]
  · simp [numberObject, Json.nesting, Json.membersNesting, Json.depthLimit]

theorem scalarTree_number_iff {fits : Numeral → BinaryFormat → Prop} (n : Numeral) :
    ScalarTree fits .f64 (.number (String.ofList n.chars)) ↔ fits n .double := by
  have hspells : Json.Spells (String.ofList n.chars) false n :=
    ⟨n.chars, n.writtenAs_chars, by simp [Numeral.sign]⟩
  constructor
  · intro h
    cases h with
    | whole _ _ _ hrange => rcases hrange with ⟨h, -⟩ | ⟨h, -⟩ <;> cases h
    | float hf hspells' hvalue =>
      cases hf
      rwa [(hspells.unique hspells').2]
  · exact .float rfl hspells

/-- For a type of one float an object with one number is a tree unless the number overflows. -/
theorem typeTree_numberObject_iff {t : RecordType} {f : Field} (n : Numeral)
    (hfields : t.fields = [f]) (hid : f.id = "x") (hkind : f.type.kind = .primitive .f64)
    (hrepetition : f.repetition = none) :
    c.TypeTree fits t (numberObject n) ↔ fits n .double := by
  have hslot : c.SlotTree fits [("x", .number (String.ofList n.chars))] f ↔
      c.FieldTree fits f false (.number (String.ofList n.chars)) := by
    simp [SlotTree, hid, hrepetition]
  have hfield : c.FieldTree fits f false (.number (String.ofList n.chars)) ↔
      ScalarTree fits .f64 (.number (String.ofList n.chars)) := by
    constructor
    · intro h
      cases h with
      | scalar hkind' h =>
        rw [hkind] at hkind'
        cases hkind'
        exact h
      | record hcomposite _ _ =>
        rw [hkind] at hcomposite
        cases hcomposite
    · exact .scalar hkind
  have hscalar : ScalarTree fits .f64 (.number (String.ofList n.chars)) ↔ fits n .double :=
    scalarTree_number_iff n
  rw [numberObject, typeTree_object_iff, ← hscalar, ← hfield, ← hslot]
  simp [hfields, hid]

end Parsed

end Codec

end Savefile
