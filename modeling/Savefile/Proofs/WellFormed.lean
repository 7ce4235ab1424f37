import Savefile.Proofs.Containment

/-!
# Well-formed schemas

Everything that later stages take for granted of a schema is checked when it is read, part of it
where fields and types are read and part of it when they are put together. What passes all checks
can always be compiled.
-/
namespace Savefile

/-- The shape that a field's type, condition and repetition determine: the base is scalar or
composite, a condition is one layer around it, and repetition is the outermost layer. -/
inductive Field.HasShape : Field → Shape → Prop
  | primitive {f : Field} : f.repetition = none → f.condition = none →
      f.type.kind.isComposite = false → HasShape f .primitive
  | composite {f : Field} : f.repetition = none → f.condition = none →
      f.type.kind.isComposite = true → HasShape f .composite
  | conditional {f : Field} {inner : Shape} : f.repetition = none → f.condition.isSome = true →
      HasShape { f with condition := none } inner → HasShape f (.conditional inner)
  | repeated {f : Field} {inner : Shape} : f.repetition.isSome = true →
      HasShape { f with repetition := none } inner → HasShape f (.repeated inner)

theorem Field.hasShape_iff (f : Field) (shape : Shape) : f.HasShape shape ↔ f.shape = shape := by
  constructor
  · intro h
    induction h with
    | primitive hr hc hk => simp [Field.shape, elementShape, hr, hc, hk]
    | composite hr hc hk => simp [Field.shape, elementShape, hr, hc, hk]
    | conditional hr hc _ ih =>
      rw [← ih]
      simp [Field.shape, elementShape, hr, hc]
    | repeated hr _ ih =>
      rw [← ih]
      simp [Field.shape, elementShape, hr]
  · rintro rfl
    have hbase : ∀ g : Field, g.repetition = none → g.condition = none → g.HasShape g.shape := by
      intro g hr hc
      cases hk : g.type.kind.isComposite with
      | false => simpa [Field.shape, elementShape, hr, hc, hk] using HasShape.primitive hr hc hk
      | true => simpa [Field.shape, elementShape, hr, hc, hk] using HasShape.composite hr hc hk
    have helement : ∀ g : Field, g.repetition = none → g.HasShape g.shape := by
      intro g hr
      cases hc : g.condition with
      | none => exact hbase g hr hc
      | some cond =>
        have hshape := hbase { g with condition := none } hr rfl
        simpa [Field.shape, elementShape, hr, hc] using
          HasShape.conditional hr (by simp [hc]) hshape
    cases hr : f.repetition with
    | none => exact helement f hr
    | some r =>
      have hshape := helement { f with repetition := none } rfl
      simpa [Field.shape, elementShape, hr] using HasShape.repeated (by simp [hr]) hshape

namespace Schema

/-- The identifiers of fields are identifiers, all different, and none stands for the context. -/
structure Named (fields : List Field) : Prop where
  distinct : (fields.map (·.id)).Nodup
  identifier : ∀ f ∈ fields, Text.isIdentifier f.id = true
  notRoot : ∀ f ∈ fields, f.id ≠ rootVariable

/-- What later stages take for granted of a schema. -/
structure WellFormed (s : Schema) : Prop where
  fields : ∀ t, t ∈ s.types ∨ t = s.root → Named t.fields
  distinct : (s.types.map (·.name)).Nodup
  identifier : ∀ t ∈ s.types, Text.isIdentifier t.name = true
  notPrimitive : ∀ t ∈ s.types, Primitive.lookup? t.name = none
  notRoot : ∀ t ∈ s.types, t.name ≠ s.root.name
  /-- A composite field names a declared type. -/
  declared : ∀ t, t ∈ s.types ∨ t = s.root → ∀ f ∈ t.fields, f.type.kind.isComposite = true →
    ∃ u ∈ s.types, u.name = f.type.name
  /-- A field that keeps its room while absent has a type of fixed width. -/
  width : ∀ t, t ∈ s.types ∨ t = s.root → ∀ f ∈ t.fields, ∀ cond, f.condition = some cond →
    cond.advance = true → ∃ w, s.fixedWidth f.type = some w
  shape : ∀ t, t ∈ s.types ∨ t = s.root → ∀ f ∈ t.fields, ∀ shape,
    f.HasShape shape ↔ f.shape = shape
  /-- No type contains itself, through however many others. -/
  acyclic : ∀ t ∈ s.types, ¬Relation.TransGen s.Contains t.name t.name

theorem readFieldsFrom_named [Language] {path : String} {nodes : List Yaml.Node}
    {seen : List String} {i : Nat} {fields : List Field}
    (h : readFieldsFrom path seen i nodes = .ok fields) :
    Named fields ∧ ∀ f ∈ fields, f.id ∉ seen := by
  induction nodes generalizing seen i fields with
  | nil =>
    cases h
    exact ⟨⟨by simp, by simp, by simp⟩, by simp⟩
  | cons node nodes ih =>
    obtain ⟨f, fs, rfl, hf, hseen, hfs⟩ := readFieldsFrom_cons_ok h
    obtain ⟨id, base, condition, repetition, hidentifier, hroot, -, -, rfl⟩ := readField_ok hf
    obtain ⟨hnamed, hfresh⟩ := ih hfs
    refine ⟨⟨?_, ?_, ?_⟩, ?_⟩
    · rw [List.map_cons, List.nodup_cons]
      refine ⟨?_, hnamed.distinct⟩
      intro hmem
      obtain ⟨g, hg, hid⟩ := List.mem_map.mp hmem
      exact hfresh g hg (hid ▸ List.mem_cons_self ..)
    · exact List.forall_mem_cons.mpr ⟨hidentifier, hnamed.identifier⟩
    · exact List.forall_mem_cons.mpr ⟨hroot, hnamed.notRoot⟩
    · refine List.forall_mem_cons.mpr ⟨hseen, ?_⟩
      intro g hg hmem
      exact hfresh g hg (List.mem_cons_of_mem _ hmem)

theorem readFields_named [Language] {path : String} {node : Yaml.Node} {fields : List Field}
    (h : readFields path node = .ok fields) : Named fields := by
  unfold readFields at h
  split at h
  · exact (readFieldsFrom_named h).1
  · cases h

theorem readTypeEntries_ok [Language] {entries : List (Yaml.Node × Yaml.Node)}
    {types : List RecordType} (h : readTypeEntries entries = .ok types) : ∀ t ∈ types,
      Text.isIdentifier t.name = true ∧ Primitive.lookup? t.name = none ∧ Named t.fields := by
  induction entries generalizing types with
  | nil =>
    cases h
    simp
  | cons entry rest ih =>
    obtain ⟨key, value⟩ := entry
    obtain ⟨fields, ts, rfl, hkey, hprimitive, hfields, hts⟩ := readTypeEntries_cons_ok h
    refine List.forall_mem_cons.mpr ⟨⟨?_, hprimitive, readFields_named hfields⟩, ih hts⟩
    cases key <;> simp_all [isTypeNameNode, Yaml.Node.keyText]

theorem readTypes_ok [Language] {node : Option Yaml.Node} {types : List RecordType}
    (h : readTypes node = .ok types) : ∀ t ∈ types,
      Text.isIdentifier t.name = true ∧ Primitive.lookup? t.name = none ∧ Named t.fields := by
  unfold readTypes at h
  split at h
  · cases h
    simp
  · split at h
    · cases h
      simp
    · split at h
      · exact readTypeEntries_ok h
      · cases h

/-- The name that a token without one gets from its place is an identifier. -/
theorem isIdentifier_placeName (i : Nat) : Text.isIdentifier ("field_" ++ toString i) = true := by
  have hdigits : (Nat.toDigits 10 i).all Text.isIdentRest = true := by
    rw [List.all_eq_true]
    intro c hc
    simp [Text.isIdentRest, Char.isAlphanum, Nat.isDigit_of_mem_toDigits (by omega) (by omega) hc]
  have hchars : ("field_" ++ toString i).toList = 'f' :: ("ield_".toList ++ Nat.toDigits 10 i) := by
    simp
  have hword : Text.isIdentStart 'f' && "ield_".toList.all Text.isIdentRest := by decide
  rw [Text.isIdentifier, hchars, Text.isIdentifierChars, List.all_append, hdigits, Bool.and_true]
  exact hword

theorem tokenId_ok {i : Nat} {name : Option (List Char)} {id : String}
    (h : tokenId i name = .ok id) : Text.isIdentifier id = true ∧ id ≠ rootVariable := by
  unfold tokenId at h
  split at h
  · cases h
    refine ⟨isIdentifier_placeName i, ?_⟩
    intro heq
    have hhead := congrArg (fun s => s.toList.head?) heq
    simp [rootVariable] at hhead
  · dsimp only at h
    split at h
    · rename_i hid
      cases h
      simpa using hid
    · cases h

theorem tokenFields_ok {tokens : List (List Char)} {i : Nat} {fields : List Field}
    (h : tokenFields i tokens = .ok fields) :
    ∀ f ∈ fields, Text.isIdentifier f.id = true ∧ f.id ≠ rootVariable := by
  induction tokens generalizing i fields with
  | nil =>
    cases h
    simp
  | cons token tokens ih =>
    obtain ⟨f, fs, rfl, hf, hfs⟩ := tokenFields_cons_ok h
    obtain ⟨t, p, id, repetition, -, -, hid, -, rfl⟩ := tokenField_ok hf
    exact List.forall_mem_cons.mpr ⟨tokenId_ok hid, ih hfs⟩

/-- The checks of putting a schema together add to those of reading its parts. -/
theorem wellFormed_of_build {order : ByteOrder} {rootName : String} {types : List RecordType}
    {items : List Field} {s : Schema} (h : build order rootName types items = .ok s)
    (htypes : ∀ t ∈ types,
      Text.isIdentifier t.name = true ∧ Primitive.lookup? t.name = none ∧ Named t.fields)
    (hitems : Named items) : s.WellFormed := by
  obtain ⟨rfl, rfl, hdistinct, hclash, hfault⟩ := build_ok h
  obtain ⟨hplaceable, hchain⟩ := fault?_eq_none_iff.mp hfault
  refine ⟨?_, hdistinct, fun t ht => (htypes t ht).1, fun t ht => (htypes t ht).2.1, hclash, ?_, ?_,
    fun _ _ f _ => f.hasShape_iff, fun t ht => selfChain?_eq_none_iff.mp (hchain t ht)⟩
  · rintro t (ht | rfl)
    · exact (htypes t ht).2.2
    · exact hitems
  · intro t ht f hf hcomposite
    obtain ⟨u, hu⟩ := Option.isSome_iff_exists.mp ((hplaceable t ht f hf).declared hcomposite)
    exact ⟨u, mem_of_declared? hu, declared?_name hu⟩
  · intro t ht f hf cond hc hadvance
    exact Option.isSome_iff_exists.mp ((hplaceable t ht f hf).width cond hc hadvance)

theorem Accepted.wellFormed {s : Schema} (h : s.Accepted) : s.WellFormed := by
  rcases h with ⟨_, document, h⟩ | ⟨format, h⟩
  · obtain ⟨_, _, _, types, _, items, htypes, hitems, hb⟩ := parts_of_parse h
    exact wellFormed_of_build hb (readTypes_ok htypes) (readFields_named hitems)
  · obtain ⟨_, _, items, hitems, hids, hb⟩ := parts_of_parseCompact h
    have hfields := tokenFields_ok hitems
    exact wellFormed_of_build hb (by simp)
      ⟨hids, fun f hf => (hfields f hf).1, fun f hf => (hfields f hf).2⟩

/-- What is well-formed passes the checks again. -/
theorem WellFormed.fault? {s : Schema} (h : s.WellFormed) : s.fault? = none := by
  refine fault?_eq_none_iff.mpr ⟨?_, fun t ht => selfChain?_eq_none_iff.mpr (h.acyclic t ht)⟩
  intro t ht f hf
  refine ⟨?_, ?_⟩
  · intro hcomposite
    obtain ⟨u, hu, hname⟩ := h.declared t ht f hf hcomposite
    rw [declared?, List.find?_isSome]
    exact ⟨u, hu, by simpa using hname⟩
  · intro cond hc hadvance
    exact Option.isSome_iff_exists.mpr (h.width t ht f hf cond hc hadvance)

end Schema

namespace Codec

theorem fieldFault?_eq_none_iff {s : Schema} {type : String} {f : Field} :
    fieldFault? s type f = none ↔ s.Placeable f := by
  have hsame : s.fieldFault? type f = none ↔ s.Placeable f := Schema.fieldFault?_eq_none_iff
  rw [← hsame]
  unfold fieldFault? Schema.fieldFault?
  split
  · simp
  · split <;> simp

theorem layoutFault?_of_fault? {s : Schema} (h : s.fault? = none) : layoutFault? s = none := by
  have hplaceable := (Schema.fault?_eq_none_iff.mp h).1
  unfold layoutFault?
  rw [List.findSome?_eq_none_iff]
  intro t ht
  rw [List.findSome?_eq_none_iff]
  intro f hf
  rw [fieldFault?_eq_none_iff]
  exact hplaceable t (by simpa using ht) f hf

theorem compile_of_fault? {s : Schema} (h : s.fault? = none) (options : CodecOptions) :
    compile (some s) options = .ok ⟨s, options⟩ := by
  simp only [compile, h, layoutFault?_of_fault? h]

/-- A schema that is read is well-formed, and so it is always compiled: neither an undeclared type
nor a missing width is found then. -/
theorem compile_accepted {s : Schema} (h : s.Accepted) :
    s.WellFormed ∧ layoutFault? s = none ∧
      ∀ options, compile (some s) options = .ok ⟨s, options⟩ := by
  have hwell := h.wellFormed
  exact ⟨hwell, layoutFault?_of_fault? hwell.fault?, compile_of_fault? hwell.fault?⟩

theorem compile_accepted_recursive_list :
    ∃ s, Schema.parse ("types:\n  Node:\n  - id: n\n    type: u8\n  - id: children\n" ++
        "    type: '[]Node'\n    repeat: Count(n)\n  - id: tail\n    type: Option<Leaf>\n" ++
        "    if: n > 1\n    advance_if_false: yes\n  Leaf:\n  - id: x\n    type: s16\n" ++
        "items:\n- id: top\n  type: Node").toUTF8.toList = .ok s ∧
      s.WellFormed ∧ s.types.length = 2 ∧ compile (some s) .strict = .ok ⟨s, .strict⟩ := by
  have hparse : (Schema.parse ("types:\n  Node:\n  - id: n\n    type: u8\n  - id: children\n" ++
      "    type: '[]Node'\n    repeat: Count(n)\n  - id: tail\n    type: Option<Leaf>\n" ++
      "    if: n > 1\n    advance_if_false: yes\n  Leaf:\n  - id: x\n    type: s16\n" ++
      "items:\n- id: top\n  type: Node").toUTF8.toList).toOption.map (fun s => s.types.length) =
        some 2 := by decide +kernel
  obtain ⟨s, hs, hlength⟩ := Option.map_eq_some_iff.mp hparse
  have hs := eq_ok_of_toOption hs
  obtain ⟨hwell, -, hcompile⟩ := compile_accepted (.of_parse hs)
  exact ⟨s, hs, hwell, hlength, hcompile .strict⟩

end Codec

end Savefile
