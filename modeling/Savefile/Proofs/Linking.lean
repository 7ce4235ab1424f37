import Savefile.Codec.Basic
import Savefile.Proofs.Result
import Savefile.Schema.Compact
import Savefile.Schema.Document

/-!
# Accepted schemas

Whatever a schema is read from, it is put together and checked in one place. So in a schema that is
read from a document or a format every composite field names a declared type, and the root is none
of these: records nest, but the root does not stand inside a record. Its fields are all made by one
reader, and each expression in them was set. This is so whatever the language of its expressions.
-/
namespace Savefile

namespace Schema

/-- A schema that some document, with expressions in some language, or some compact format
describes. -/
def Accepted (s : Schema) : Prop :=
  (∃ (_ : Language) (document : List UInt8), parse document = .ok s) ∨
    ∃ format, parseCompact format = .ok s

theorem Accepted.of_parse [Language] {document : List UInt8} {s : Schema}
    (h : parse document = .ok s) : s.Accepted := .inl ⟨_, document, h⟩

/-- Composite fields name declared types, and the root is not one of them. -/
structure Linked (s : Schema) : Prop where
  rootApart : s.declared? s.root.name = none
  declared : ∀ t, t ∈ s.types ∨ t = s.root → ∀ f ∈ t.fields, f.type.kind.isComposite = true →
    (s.declared? f.type.name).isSome = true

theorem declared?_name {s : Schema} {name : String} {t : RecordType}
    (h : s.declared? name = some t) : t.name = name := by
  have hn := List.find?_some h
  simpa using hn

theorem mem_of_declared? {s : Schema} {name : String} {t : RecordType}
    (h : s.declared? name = some t) : t ∈ s.types := List.mem_of_find?_eq_some h

theorem mem_names_of_isSome {s : Schema} {name : String}
    (h : (s.declared? name).isSome = true) : name ∈ s.types.map (·.name) := by
  obtain ⟨t, ht⟩ := Option.isSome_iff_exists.mp h
  rw [← declared?_name ht]
  exact List.mem_map_of_mem (mem_of_declared? ht)

/-- A field can be laid out in a schema: its type is declared, and it keeps its room while absent only
if its type has a width. -/
structure Placeable (s : Schema) (f : Field) : Prop where
  declared : f.type.kind.isComposite = true → (s.declared? f.type.name).isSome = true
  width : ∀ cond, f.condition = some cond → cond.advance = true → (s.fixedWidth f.type).isSome = true

theorem fieldFault?_eq_none_iff {s : Schema} {path : String} {f : Field} :
    s.fieldFault? path f = none ↔ s.Placeable f := by
  unfold fieldFault?
  constructor
  · intro h
    split at h
    · cases h
    · rename_i hdeclared
      split at h
      · cases h
      · rename_i hwidth
        refine ⟨?_, ?_⟩
        · intro hf
          simpa [hf, ← Option.isSome_iff_ne_none] using hdeclared
        · intro cond hc hadvance
          simpa [hc, hadvance, ← Option.isSome_iff_ne_none] using hwidth
  · rintro ⟨hdeclared, hwidth⟩
    rw [if_neg, if_neg]
    · cases hc : f.condition with
      | none => simp
      | some cond => simpa [Option.isSome_iff_ne_none] using hwidth cond hc
    · simpa [Option.isSome_iff_ne_none] using hdeclared

theorem fieldsFault?_eq_none_iff {s : Schema} {path : String} {fields : List Field} (i : Nat) :
    s.fieldsFault? path i fields = none ↔ ∀ f ∈ fields, s.Placeable f := by
  induction fields generalizing i with
  | nil => simp [fieldsFault?]
  | cons g fs ih =>
    unfold fieldsFault?
    cases hg : s.fieldFault? (fieldPath path i) g with
    | some e =>
      have hnot : ¬s.Placeable g := by
        rw [← fieldFault?_eq_none_iff, hg]
        simp
      simp [hnot]
    | none => simp [ih, fieldFault?_eq_none_iff.mp hg]

/-- A schema has no fault if all fields can be laid out and no chain of records leads from a type back
to it. -/
theorem fault?_eq_none_iff {s : Schema} :
    s.fault? = none ↔
      (∀ t, t ∈ s.types ∨ t = s.root → ∀ f ∈ t.fields, s.Placeable f) ∧
        ∀ t ∈ s.types, s.selfChain? t.name = none := by
  have htypes : (s.types.findSome? fun t => s.fieldsFault? (typePath t.name) 0 t.fields) = none ↔
      ∀ t ∈ s.types, ∀ f ∈ t.fields, s.Placeable f := by
    simp [List.findSome?_eq_none_iff, fieldsFault?_eq_none_iff]
  have hroot : s.fieldsFault? "items" 0 s.root.fields = none ↔
      ∀ f ∈ s.root.fields, s.Placeable f := fieldsFault?_eq_none_iff 0
  have hboth : (∀ t, t ∈ s.types ∨ t = s.root → ∀ f ∈ t.fields, s.Placeable f) ↔
      (∀ t ∈ s.types, ∀ f ∈ t.fields, s.Placeable f) ∧ ∀ f ∈ s.root.fields, s.Placeable f := by
    constructor
    · intro h
      exact ⟨fun t ht => h t (.inl ht), h s.root (.inr rfl)⟩
    · rintro ⟨h, h'⟩ t (ht | rfl)
      · exact h t ht
      · exact h'
  rw [hboth, ← htypes, ← hroot]
  unfold fault?
  cases s.types.findSome? fun t => s.fieldsFault? (typePath t.name) 0 t.fields with
  | some e => simp
  | none =>
    cases s.fieldsFault? "items" 0 s.root.fields with
    | some e => simp
    | none => simp [List.findSome?_eq_none_iff]

theorem firstRepeat?_eq_none_iff {seen names : List String} (i : Nat) :
    firstRepeat? seen i names = none ↔ names.Nodup ∧ ∀ n ∈ names, n ∉ seen := by
  induction names generalizing seen i with
  | nil => simp [firstRepeat?]
  | cons n names ih =>
    unfold firstRepeat?
    by_cases hn : n ∈ seen
    · simp [hn]
    · simp only [List.contains_eq_mem, hn, decide_false, Bool.false_eq_true, if_false, ih]
      simp only [List.nodup_cons, List.mem_cons, forall_eq_or_imp, hn, not_false_eq_true, true_and]
      constructor
      · rintro ⟨hnodup, h⟩
        exact ⟨⟨fun hmem => h n hmem (.inl rfl), hnodup⟩, fun m hm hs => h m hm (.inr hs)⟩
      · rintro ⟨⟨hmem, hnodup⟩, h⟩
        exact ⟨hnodup, fun m hm hs => hs.elim (fun he => hmem (he ▸ hm)) (h m hm)⟩

/-- A schema is put together just if the names of its types differ from each other and from that of
the root, and it has no fault. -/
theorem build_eq_ok_iff {order : ByteOrder} {rootName : String} {types : List RecordType}
    {items : List Field} {s : Schema} :
    build order rootName types items = .ok s ↔
      s = ⟨order, types, ⟨if rootName.isEmpty then defaultRootName else rootName, items⟩⟩ ∧
        (types.map (·.name)).Nodup ∧ (∀ t ∈ types, t.name ≠ s.root.name) ∧ s.fault? = none := by
  unfold build
  dsimp only
  generalize (if rootName.isEmpty = true then defaultRootName else rootName) = name
  constructor
  · intro h
    split at h
    · cases h
    · rename_i hnames
      split at h
      · cases h
      · rename_i hclash
        split at h
        · cases h
        · rename_i hfault
          cases h
          exact ⟨rfl, ((firstRepeat?_eq_none_iff 0).mp hnames).1, by simpa using hclash, hfault⟩
  · rintro ⟨rfl, hnames, hclash, hfault⟩
    have hdistinct : firstRepeat? [] 0 (types.map (·.name)) = none :=
      (firstRepeat?_eq_none_iff 0).mpr ⟨hnames, fun _ _ => List.not_mem_nil⟩
    have hroot : (types.any fun t => t.name == name) = false := by simpa using hclash
    simp [hdistinct, hroot, hfault]

theorem build_ok {order : ByteOrder} {rootName : String} {types : List RecordType}
    {items : List Field} {s : Schema} (h : build order rootName types items = .ok s) :
    s.types = types ∧ s.root.fields = items ∧ (types.map (·.name)).Nodup ∧
      (∀ t ∈ types, t.name ≠ s.root.name) ∧ s.fault? = none := by
  obtain ⟨rfl, hnames, hclash, hfault⟩ := build_eq_ok_iff.mp h
  exact ⟨rfl, rfl, hnames, hclash, hfault⟩

theorem linked_of_build {order : ByteOrder} {rootName : String} {types : List RecordType}
    {items : List Field} {s : Schema} (h : build order rootName types items = .ok s) :
    s.Linked := by
  obtain ⟨rfl, rfl, -, hclash, hfault⟩ := build_ok h
  refine ⟨?_, fun t ht f hf => ((fault?_eq_none_iff.mp hfault).1 t ht f hf).declared⟩
  simpa [declared?, List.find?_eq_none] using hclash

/-- What a field that is read is made of. -/
theorem readField_ok [Language] {path : String} {node : Yaml.Node} {f : Field}
    (h : readField path node = .ok f) :
    ∃ id base condition repetition, Text.isIdentifier id = true ∧ id ≠ rootVariable ∧
      readFieldCondition path node = .ok condition ∧
      readFieldRepetition path node = .ok repetition ∧
      f = ⟨id, .ofName base, condition, repetition⟩ := by
  unfold readField at h
  split at h
  · obtain ⟨id, _, h⟩ := exists_of_bind_ok h
    split at h
    · cases h
    · rename_i hid
      obtain ⟨text, _, h⟩ := exists_of_bind_ok h
      split at h
      · cases h
      · split at h
        · cases h
        · obtain ⟨condition, hcondition, h⟩ := exists_of_bind_ok h
          obtain ⟨repetition, hrepetition, h⟩ := exists_of_bind_ok h
          split at h
          · cases h
          · cases h
            simp only [Bool.or_eq_true, Bool.not_eq_eq_eq_not, Bool.not_true, beq_iff_eq,
              not_or, Bool.not_eq_false] at hid
            exact ⟨_, _, _, _, hid.1, hid.2, hcondition, hrepetition, rfl⟩
  · cases h

theorem readFieldsFrom_cons_ok [Language] {path : String} {node : Yaml.Node}
    {nodes : List Yaml.Node} {seen : List String} {i : Nat} {fields : List Field}
    (h : readFieldsFrom path seen i (node :: nodes) = .ok fields) :
    ∃ f fs, fields = f :: fs ∧ readField (fieldPath path i) node = .ok f ∧ f.id ∉ seen ∧
      readFieldsFrom path (f.id :: seen) (i + 1) nodes = .ok fs := by
  unfold readFieldsFrom at h
  obtain ⟨f, hf, h⟩ := exists_of_bind_ok h
  split at h
  · cases h
  · rename_i hseen
    obtain ⟨fs, hfs, h⟩ := exists_of_bind_ok h
    cases h
    exact ⟨f, fs, rfl, hf, by simpa using hseen, hfs⟩

theorem readTypeEntries_cons_ok [Language] {key value : Yaml.Node}
    {rest : List (Yaml.Node × Yaml.Node)} {types : List RecordType}
    (h : readTypeEntries ((key, value) :: rest) = .ok types) :
    ∃ fields ts, types = ⟨key.keyText, fields⟩ :: ts ∧ isTypeNameNode key = true ∧
      Primitive.lookup? key.keyText = none ∧
      readFields (typePath key.keyText) value = .ok fields ∧ readTypeEntries rest = .ok ts := by
  unfold readTypeEntries at h
  dsimp only at h
  split at h
  · cases h
  · rename_i hkey
    split at h
    · cases h
    · rename_i hprimitive
      obtain ⟨fields, hfields, h⟩ := exists_of_bind_ok h
      obtain ⟨ts, hts, h⟩ := exists_of_bind_ok h
      cases h
      exact ⟨fields, ts, rfl, by simpa using hkey, by simpa using hprimitive, hfields, hts⟩

/-- What a field of a token is made of. -/
theorem tokenField_ok {i : Nat} {token : List Char} {f : Field} (h : tokenField i token = .ok f) :
    ∃ t p id repetition, FormatToken.parse? token = some t ∧ formatPrimitive? t.code = some p ∧
      tokenId i t.name = .ok id ∧ tokenRepetition t.digits = .ok repetition ∧
      f = ⟨id, .ofPrimitive p, none, repetition⟩ := by
  unfold tokenField at h
  split at h
  · cases h
  · rename_i t ht
    split at h
    · cases h
    · rename_i p hp
      obtain ⟨id, hid, h⟩ := exists_of_bind_ok h
      obtain ⟨repetition, hrepetition, h⟩ := exists_of_bind_ok h
      cases h
      exact ⟨t, p, id, repetition, ht, hp, hid, hrepetition, rfl⟩

theorem tokenFields_cons_ok {i : Nat} {token : List Char} {tokens : List (List Char)}
    {fields : List Field} (h : tokenFields i (token :: tokens) = .ok fields) :
    ∃ f fs, fields = f :: fs ∧ tokenField i token = .ok f ∧
      tokenFields (i + 1) tokens = .ok fs := by
  unfold tokenFields at h
  split at h
  · cases h
  · rename_i f hf
    obtain ⟨fs, hfs, rfl⟩ := exists_of_map_ok h
    exact ⟨f, fs, rfl, hf, hfs⟩

/-- The parts that a schema in a document is put together from. -/
theorem parts_of_ofNode [Language] {root : Yaml.Node} {s : Schema} (h : ofNode root = .ok s) :
    ∃ order name types node items, readTypes (root.get? "types") = .ok types ∧
      readFields "items" node = .ok items ∧ build order name types items = .ok s := by
  unfold ofNode at h
  split at h
  · dsimp only at h
    split at h <;>
    · obtain ⟨⟨order, name⟩, _, h⟩ := exists_of_bind_ok h
      obtain ⟨types, htypes, h⟩ := exists_of_bind_ok h
      split at h
      · cases h
      · obtain ⟨items, hitems, h⟩ := exists_of_bind_ok h
        exact ⟨order, name, types, _, items, htypes, hitems, h⟩
  · cases h

theorem parts_of_parse [Language] {document : List UInt8} {s : Schema}
    (h : parse document = .ok s) :
    ∃ order name typesNode types node items, readTypes typesNode = .ok types ∧
      readFields "items" node = .ok items ∧ build order name types items = .ok s := by
  unfold parse at h
  split at h
  · cases h
  · cases h
  · obtain ⟨order, name, types, node, items, hparts⟩ := parts_of_ofNode h
    exact ⟨order, name, _, types, node, items, hparts⟩

theorem parseCompact_ok {format : String} {s : Schema} (h : parseCompact format = .ok s) :
    ∃ items, tokenFields 0 (formatParts format).2 = .ok items ∧ (items.map (·.id)).Nodup ∧
      build (formatParts format).1 defaultRootName [] items = .ok s := by
  unfold parseCompact at h
  obtain ⟨items, hitems, h⟩ := exists_of_bind_ok h
  split at h
  · cases h
  · split at h
    · cases h
    · rename_i hids
      exact ⟨items, hitems, ((firstRepeat?_eq_none_iff 0).mp hids).1, h⟩

/-- The parts that a schema in a compact format is put together from. -/
theorem parts_of_parseCompact {format : String} {s : Schema} (h : parseCompact format = .ok s) :
    ∃ order tokens items, tokenFields 0 tokens = .ok items ∧ (items.map (·.id)).Nodup ∧
      build order defaultRootName [] items = .ok s := by
  obtain ⟨items, hitems, hids, hbuild⟩ := parseCompact_ok h
  exact ⟨_, _, items, hitems, hids, hbuild⟩

theorem Accepted.build {s : Schema} (h : s.Accepted) :
    ∃ order name types items, build order name types items = .ok s := by
  rcases h with ⟨_, document, h⟩ | ⟨format, h⟩
  · obtain ⟨order, name, _, types, _, items, -, -, hb⟩ := parts_of_parse h
    exact ⟨order, name, types, items, hb⟩
  · obtain ⟨order, _, items, -, -, hb⟩ := parts_of_parseCompact h
    exact ⟨order, _, _, items, hb⟩

theorem Accepted.linked {s : Schema} (h : s.Accepted) : s.Linked := by
  obtain ⟨_, _, _, _, hb⟩ := h.build
  exact linked_of_build hb

section Fields

variable {P : Field → Prop}

theorem forall_of_readFieldsFrom [Language] (hP : ∀ path node f, readField path node = .ok f → P f)
    {path : String} {nodes : List Yaml.Node} {seen : List String} {i : Nat} {fields : List Field}
    (h : readFieldsFrom path seen i nodes = .ok fields) : ∀ f ∈ fields, P f := by
  induction nodes generalizing seen i fields with
  | nil =>
    cases h
    simp
  | cons node nodes ih =>
    obtain ⟨f, fs, rfl, hf, -, hfs⟩ := readFieldsFrom_cons_ok h
    exact List.forall_mem_cons.mpr ⟨hP _ node f hf, ih hfs⟩

theorem forall_of_readFields [Language] (hP : ∀ path node f, readField path node = .ok f → P f)
    {path : String} {node : Yaml.Node} {fields : List Field}
    (h : readFields path node = .ok fields) : ∀ f ∈ fields, P f := by
  unfold readFields at h
  split at h
  · exact forall_of_readFieldsFrom hP h
  · cases h

theorem forall_of_readTypeEntries [Language] (hP : ∀ path node f, readField path node = .ok f → P f)
    {entries : List (Yaml.Node × Yaml.Node)} {types : List RecordType}
    (h : readTypeEntries entries = .ok types) : ∀ t ∈ types, ∀ f ∈ t.fields, P f := by
  induction entries generalizing types with
  | nil =>
    cases h
    simp
  | cons entry rest ih =>
    obtain ⟨key, value⟩ := entry
    obtain ⟨fields, ts, rfl, -, -, hfields, hts⟩ := readTypeEntries_cons_ok h
    exact List.forall_mem_cons.mpr ⟨forall_of_readFields hP hfields, ih hts⟩

theorem forall_of_readTypes [Language] (hP : ∀ path node f, readField path node = .ok f → P f)
    {node : Option Yaml.Node} {types : List RecordType} (h : readTypes node = .ok types) :
    ∀ t ∈ types, ∀ f ∈ t.fields, P f := by
  unfold readTypes at h
  split at h
  · cases h
    simp
  · split at h
    · cases h
      simp
    · split at h
      · exact forall_of_readTypeEntries hP h
      · cases h

theorem forall_of_tokenFields (hP : ∀ i token f, tokenField i token = .ok f → P f)
    {tokens : List (List Char)} {i : Nat} {fields : List Field}
    (h : tokenFields i tokens = .ok fields) : ∀ f ∈ fields, P f := by
  induction tokens generalizing i fields with
  | nil =>
    cases h
    simp
  | cons token tokens ih =>
    obtain ⟨f, fs, rfl, hf, hfs⟩ := tokenFields_cons_ok h
    exact List.forall_mem_cons.mpr ⟨hP i token f hf, ih hfs⟩

/-- What holds of every field that is read holds of the fields of an accepted schema. -/
theorem Accepted.forall_field
    (hdocument : ∀ (_ : Language) path node f, readField path node = .ok f → P f)
    (hformat : ∀ i token f, tokenField i token = .ok f → P f) {s : Schema} (h : s.Accepted) :
    ∀ t, t ∈ s.types ∨ t = s.root → ∀ f ∈ t.fields, P f := by
  rcases h with ⟨language, document, h⟩ | ⟨format, h⟩
  · obtain ⟨_, _, _, types, _, items, htypes, hitems, hb⟩ := parts_of_parse h
    obtain ⟨rfl, hroot, -⟩ := build_ok hb
    rintro t (ht | rfl)
    · exact forall_of_readTypes (hdocument language) htypes t ht
    · rw [hroot]
      exact forall_of_readFields (hdocument language) hitems
  · obtain ⟨_, _, items, hitems, -, hb⟩ := parts_of_parseCompact h
    obtain ⟨hnone, hroot, -⟩ := build_ok hb
    rintro t (ht | rfl)
    · simp [hnone] at ht
    · rw [hroot]
      exact forall_of_tokenFields hformat hitems

end Fields

/-- The expressions of the field were set. -/
structure Evaluable (f : Field) : Prop where
  condition : ∀ cond, f.condition = some cond → cond.expr.meaning ≠ none
  repetition : ∀ r, f.repetition = some r → r.expr.meaning ≠ none

/-- A field without expressions. -/
theorem evaluable_of_none {f : Field} (hcondition : f.condition = none)
    (hrepetition : f.repetition = none) : Evaluable f := by
  constructor <;> simp [hcondition, hrepetition]

theorem meaning_of_compile? [Language] {source : String} {e : Expr}
    (h : Expr.compile? source = some e) : e.meaning ≠ none := by
  obtain ⟨term, -, rfl⟩ := Option.map_eq_some_iff.mp h
  simp

theorem meaning_of_readCondition [Language] {path : String} {node : Yaml.Node} {e : Expr}
    (h : readCondition path node = .ok e) : e.meaning ≠ none := by
  unfold readCondition at h
  split at h
  · split at h
    · cases h
    · split at h
      · rename_i hcompile
        cases h
        exact meaning_of_compile? hcompile
      · cases h
  · cases h

theorem meaning_of_readRepetition [Language] {path : String} {node : Yaml.Node} {r : Repetition}
    (h : readRepetition path node = .ok r) : r.expr.meaning ≠ none := by
  unfold readRepetition at h
  split at h
  · split at h
    · cases h
    · split at h
      · cases h
      · split at h
        · cases h
        · split at h
          · rename_i hcompile
            cases h
            exact meaning_of_compile? hcompile
          · cases h
  · cases h

theorem meaning_of_readFieldCondition [Language] {path : String} {node : Yaml.Node}
    {cond : Condition} (h : readFieldCondition path node = .ok (some cond)) :
    cond.expr.meaning ≠ none := by
  unfold readFieldCondition at h
  split at h
  · cases h
  · obtain ⟨e, he, h⟩ := exists_of_bind_ok h
    split at h
    · cases h
      exact meaning_of_readCondition he
    · split at h
      · cases h
        exact meaning_of_readCondition he
      · cases h

theorem meaning_of_readFieldRepetition [Language] {path : String} {node : Yaml.Node}
    {r : Repetition} (h : readFieldRepetition path node = .ok (some r)) :
    r.expr.meaning ≠ none := by
  unfold readFieldRepetition at h
  split at h
  · cases h
  · obtain ⟨r', hr, h⟩ := exists_of_map_ok h
    cases h
    exact meaning_of_readRepetition hr

theorem meaning_of_tokenRepetition {digits : List Char} {r : Repetition}
    (h : tokenRepetition digits = .ok (some r)) : r.expr.meaning ≠ none := by
  unfold tokenRepetition at h
  split at h
  · cases h
  · split at h
    · cases h
    · rename_i n _
      by_cases hone : n = 1
      · simp [hone] at h
      · simp only [hone, if_false, Except.ok.injEq, Option.some.injEq] at h
        rw [← h]
        simp [literalCount]

/-- Nothing in a schema that was read is left to be set. -/
theorem Accepted.evaluable {s : Schema} (h : s.Accepted) :
    ∀ t, t ∈ s.types ∨ t = s.root → ∀ f ∈ t.fields, Evaluable f := by
  refine h.forall_field ?_ ?_
  · intro _ path node f hf
    obtain ⟨id, base, condition, repetition, -, -, hcondition, hrepetition, rfl⟩ := readField_ok hf
    constructor
    · rintro cond rfl
      exact meaning_of_readFieldCondition hcondition
    · rintro r rfl
      exact meaning_of_readFieldRepetition hrepetition
  · intro i token f hf
    obtain ⟨t, p, id, repetition, -, -, -, hrepetition, rfl⟩ := tokenField_ok hf
    constructor
    · rintro cond ⟨⟩
    · rintro r rfl
      exact meaning_of_tokenRepetition hrepetition

end Schema

namespace Codec

theorem compile_ok {s : Schema} {options : CodecOptions} {c : Codec}
    (h : compile (some s) options = .ok c) : c = ⟨s, options⟩ := by
  unfold compile at h
  dsimp only at h
  split at h
  · cases h
  · split at h
    · cases h
    · cases h
      rfl

theorem linked_of_compile {s : Schema} {options : CodecOptions} {c : Codec} (hs : s.Accepted)
    (hc : compile (some s) options = .ok c) : c.schema.Linked := by
  rw [compile_ok hc]
  exact hs.linked

theorem eq_ok_of_toOption {ε α : Type} {x : Except ε α} {a : α} (h : x.toOption = some a) :
    x = .ok a := by
  cases x with
  | error e => cases h
  | ok b => rw [Option.some.inj h]

/-- The codec of a schema that was read, with what is found out about it by evaluation. -/
theorem exists_of_schema {source : Except SchemaError Schema} {options : CodecOptions} {α : Type}
    {Q : Schema → Codec → Prop} (k : Codec → Option α) (a : α)
    (h : (source.toOption.bind fun s => (compile (some s) options).toOption.bind k) = some a)
    (hq : ∀ s c, source = .ok s → compile (some s) options = .ok c → k c = some a → Q s c) :
    ∃ s c, source = .ok s ∧ compile (some s) options = .ok c ∧ Q s c := by
  obtain ⟨s, hs, h⟩ := Option.bind_eq_some_iff.mp h
  obtain ⟨c, hc, h⟩ := Option.bind_eq_some_iff.mp h
  have hs := eq_ok_of_toOption hs
  have hc := eq_ok_of_toOption hc
  exact ⟨s, c, hs, hc, hq s c hs hc h⟩

/-- The codec of a document, with what is found out about it by evaluation. -/
theorem exists_of_parse {document : List UInt8} {options : CodecOptions} {α : Type}
    {Q : Schema → Codec → Prop} (k : Codec → Option α) (a : α)
    (h : ((Schema.parse document).toOption.bind fun s =>
      (compile (some s) options).toOption.bind k) = some a)
    (hq : ∀ s c, Schema.parse document = .ok s → compile (some s) options = .ok c → k c = some a →
      Q s c) :
    ∃ s c, Schema.parse document = .ok s ∧ compile (some s) options = .ok c ∧ Q s c :=
  exists_of_schema k a h hq

variable {c : Codec} {name : String} {t : RecordType}

theorem type?_root (c : Codec) : c.type? c.schema.root.name = some c.schema.root := by
  simp [type?, isRoot]

theorem type?_name (h : c.type? name = some t) : t.name = name := by
  unfold type? isRoot at h
  split at h
  · rename_i hn
    cases h
    exact (beq_iff_eq.mp hn).symm
  · exact Schema.declared?_name h

theorem isRoot_eq_false (hl : c.schema.Linked) (h : (c.schema.declared? name).isSome = true) :
    c.isRoot name = false := by
  cases hn : c.isRoot name with
  | false => rfl
  | true =>
    have hr : name = c.schema.root.name := by simpa [isRoot] using hn
    rw [hr, hl.rootApart] at h
    cases h

theorem type?_declared (hl : c.schema.Linked) (h : (c.schema.declared? name).isSome = true) :
    c.type? name = c.schema.declared? name := by
  simp [type?, isRoot_eq_false hl h]

theorem mem_of_type? (h : c.type? name = some t) : t ∈ c.schema.types ∨ t = c.schema.root := by
  unfold type? at h
  split at h
  · cases h
    exact Or.inr rfl
  · exact Or.inl (Schema.mem_of_declared? h)

/-- The composite fields of any record have declared types. -/
theorem declared_of_type? (hl : c.schema.Linked) (h : c.type? name = some t) :
    ∀ f ∈ t.fields, f.type.kind.isComposite = true →
      (c.schema.declared? f.type.name).isSome = true :=
  hl.declared t (mem_of_type? h)

end Codec

end Savefile
