import Savefile.Proofs.Culprit
import Savefile.Proofs.Graph
import Savefile.Proofs.Levels

/-!
# Types that refer to themselves

A type may refer to itself through fields that are conditional or repeated. Its records end if each
of them takes some input before it comes to the next one around the cycle: a scalar field in front,
neither conditional nor repeated, is enough. On the way from a type to one that does not lead back
to it no input is needed, but there are only so many types to come to. Remaining input and the
number of types still ahead together bound how deep the records of such a schema nest.
-/
namespace Savefile

namespace Schema

/-- Records of the first type may hold records of the second, at once, behind a condition or in a
list. -/
def Refers (s : Schema) (a b : String) : Prop :=
  ∃ t, s.declared? a = some t ∧ ∃ f ∈ t.fields, f.type.kind.isComposite = true ∧ f.type.name = b

/-- The first type leads to the second through any number of others. -/
def Reaches (s : Schema) : String → String → Prop := Relation.TransGen s.Refers

/-- The field leads back to the type it stands in. -/
def LeadsBack (s : Schema) (t : RecordType) (f : Field) : Prop :=
  f.type.kind.isComposite = true ∧ s.Reaches f.type.name t.name

/-- Before the first field that leads back to its type there is a scalar field, neither conditional
nor repeated. -/
def Guarded (s : Schema) : Prop :=
  ∀ t ∈ s.types, s.Reaches t.name t.name →
    ∀ before f after, t.fields = before ++ f :: after → s.LeadsBack t f →
      (∀ g ∈ before, ¬s.LeadsBack t g) → ∃ g ∈ before, g.isContextual = true

/-- A guard that every type starts with. -/
theorem guarded_of_head {s : Schema}
    (h : ∀ t ∈ s.types, (t.fields.head?.any Field.isContextual) = true) : s.Guarded := by
  intro t ht _ before f after hsplit hback _
  have hhead := h t ht
  rw [hsplit] at hhead
  cases before with
  | nil =>
    have hf : f.isContextual = true := by simpa using hhead
    simp [Field.isContextual, hback.1] at hf
  | cons g before => exact ⟨g, List.mem_cons_self .., by simpa using hhead⟩

/-- The fields of a guarded type: none leads back to it, or a guard stands before all that do. -/
theorem Guarded.split {s : Schema} (hguard : s.Guarded) {name : String} {t : RecordType}
    (ht : s.declared? name = some t) :
    (∀ f ∈ t.fields, ¬s.LeadsBack t f) ∨ ∃ front g rest, t.fields = front ++ g :: rest ∧
      g.isContextual = true ∧ ∀ f ∈ front, ¬s.LeadsBack t f := by
  classical
  cases hfind : t.fields.find? fun f => decide (s.LeadsBack t f) with
  | none =>
    left
    simpa [List.find?_eq_none] using hfind
  | some f =>
    right
    obtain ⟨hback, before, after, hsplit, hfirst⟩ := List.find?_eq_some_iff_append.mp hfind
    simp only [decide_eq_true_eq, Bool.not_eq_eq_eq_not, Bool.not_true, decide_eq_false_iff_not]
      at hback hfirst
    have hself : s.Reaches t.name t.name := by
      have hrefers : s.Refers t.name f.type.name := by
        rw [declared?_name ht]
        exact ⟨t, ht, f, by simp [hsplit], hback.1, rfl⟩
      exact .head hrefers hback.2
    obtain ⟨g, hg, hcontextual⟩ :=
      hguard t (mem_of_declared? ht) hself before f after hsplit hback hfirst
    obtain ⟨front, behind, rfl⟩ := List.append_of_mem hg
    refine ⟨front, g, behind ++ f :: after, by simp [hsplit], hcontextual, ?_⟩
    intro f' hf'
    exact hfirst f' (by simp [hf'])

/-- The declared types that a type leads to without a way back. -/
noncomputable def ahead (s : Schema) (name : String) : Finset String :=
  Graph.ahead (s.types.map (·.name)).toFinset s.Refers name

variable {s : Schema} {a b : String}

theorem card_ahead_le (h : s.Refers a b) : (s.ahead b).card ≤ (s.ahead a).card :=
  Graph.card_ahead_le h

theorem card_ahead_lt (h : s.Refers a b) (hb : b ∈ s.types.map (·.name)) (hnot : ¬s.Reaches b a) :
    (s.ahead b).card < (s.ahead a).card :=
  Graph.card_ahead_lt h (List.mem_toFinset.mpr hb) hnot

theorem card_ahead_lt_types (ha : a ∈ s.types.map (·.name)) :
    (s.ahead a).card < s.types.length := by
  calc (s.ahead a).card < (s.types.map (·.name)).toFinset.card :=
        Graph.card_ahead_lt_card (List.mem_toFinset.mpr ha)
    _ ≤ (s.types.map (·.name)).length := List.toFinset_card_le _
    _ = s.types.length := List.length_map _

end Schema

namespace Reader

variable {α β : Type} {limit : Nat}

/-- With no more input than the limit, the reader has levels enough, and it does not make input. -/
structure Ends (limit : Nat) (p : Reader α) : Prop where
  enough : ∀ s, s.rest.length ≤ limit → ¬TooDeep (p s)
  shrinks : ∀ s v s', s.rest.length ≤ limit → p s = .done v s' → s'.rest.length ≤ s.rest.length

namespace Ends

theorem done (v : α) : Ends limit fun s => .done v s := by
  refine ⟨fun s _ => not_tooDeep_done v s, ?_⟩
  intro s w s' _ h
  cases h
  exact Nat.le_refl _

theorem failing (kind : DecodeErrorKind) (cause : Cause) :
    Ends limit (failing kind cause : Reader α) := by
  refine ⟨fun s _ => not_tooDeep_fail s kind s.position cause, ?_⟩
  intro s v s' _ h
  cases h

theorem faulting {f : Fault} (hf : f ≠ .tooDeep) : Ends limit (faulting f : Reader α) := by
  refine ⟨fun s _ => not_tooDeep_faulting hf s, ?_⟩
  intro s v s' _ h
  cases h

theorem taking (n : Nat) (make : List UInt8 → α) : Ends limit (taking n make) := by
  refine ⟨fun s _ => not_tooDeep_taking n make s, ?_⟩
  intro s v s' _ h
  obtain ⟨b, -, -, hb⟩ := taking_done h
  rw [hb.rest, List.length_append]
  exact Nat.le_add_left _ _

/-- What comes second need only end with the input that the first leaves. -/
theorem andThen_left {p : Reader α} {q : α → Reader β} (hp : Ends limit p)
    (hq : ∀ s v s', s.rest.length ≤ limit → p s = .done v s' →
      ∃ left, s'.rest.length ≤ left ∧ Ends left (q v)) : Ends limit (p.andThen q) := by
  constructor
  · intro s hs h
    cases hps : p s with
    | failed stop s₁ =>
      simp only [Reader.andThen, hps, tooDeep_failed] at h
      apply hp.enough s hs
      rw [hps, tooDeep_failed]
      exact h
    | done v s₁ =>
      obtain ⟨left, hleft, hends⟩ := hq s v s₁ hs hps
      simp only [Reader.andThen, hps] at h
      exact hends.enough s₁ hleft h
  · intro s w s' hs h
    cases hps : p s with
    | failed stop s₁ =>
      simp only [Reader.andThen, hps] at h
      cases h
    | done v s₁ =>
      obtain ⟨left, hleft, hends⟩ := hq s v s₁ hs hps
      simp only [Reader.andThen, hps] at h
      exact (hends.shrinks s₁ w s' hleft h).trans (hp.shrinks s v s₁ hs hps)

theorem andThen {p : Reader α} {q : α → Reader β} (hp : Ends limit p)
    (hq : ∀ v, Ends limit (q v)) : Ends limit (p.andThen q) := by
  apply andThen_left hp
  intro s v s' hs h
  exact ⟨limit, (hp.shrinks s v s' hs h).trans hs, hq v⟩

theorem labelled {label : DecodeError → DecodeError} {p : Reader α} (hp : Ends limit p) :
    Ends limit (p.labelled label) := by
  refine ⟨fun s hs h => hp.enough s hs (tooDeep_labelled.mp h), ?_⟩
  intro s v s' hs h
  cases hps : p s with
  | failed stop s₁ => simp [Reader.labelled, hps] at h
  | done w s₁ =>
    simp only [Reader.labelled, hps] at h
    cases h
    exact hp.shrinks s v s' hs hps

theorem noted (note : Int → α → Note) {p : Reader α} (hp : Ends limit p) :
    Ends limit (p.noted note) := by
  refine ⟨fun s hs h => hp.enough s hs (tooDeep_noted.mp h), ?_⟩
  intro s v s' hs h
  cases hps : p s with
  | failed stop s₁ => simp [Reader.noted, hps] at h
  | done w s₁ =>
    simp only [Reader.noted, hps] at h
    cases h
    exact hp.shrinks s v s₁ hs hps

theorem consuming (required : Prop) [Decidable required] (cause : Cause) {p : Reader α}
    (hp : Ends limit p) : Ends limit (p.consuming required cause) := by
  refine ⟨fun s hs h => hp.enough s hs (tooDeep_consuming.mp h), ?_⟩
  intro s v s' hs h
  cases hps : p s with
  | failed stop s₁ => simp [Reader.consuming, hps] at h
  | done w s₁ =>
    simp only [Reader.consuming, hps] at h
    split at h
    · cases h
    · cases h
      exact hp.shrinks s v s' hs hps

theorem law (limit : Nat) : FieldLaw fun {α} (p : Unit → Reader α) => Ends limit (p ()) where
  done := done
  taking := taking
  failing := failing
  faulting := faulting
  andThen := andThen
  labelled _ h := h.labelled
  noted note _ h := h.noted note
  consuming required _ cause _ h := h.consuming required cause

end Ends

end Reader

namespace Codec

open Reader

variable {c : Codec} {nested : NestedDecoder} {limit : Nat}

theorem readField_contextual {f : Field} (hf : f.isContextual = true) (fr : Frame) :
    c.readField nested f fr = c.readScalar f.type.kind := by
  simp only [Field.isContextual, Bool.and_eq_true, Option.isNone_iff_eq_none,
    Bool.not_eq_true'] at hf
  obtain ⟨⟨hcondition, hrepetition⟩, hscalar⟩ := hf
  funext s
  simp [readField, hrepetition, readElement, hcondition, readBase, hscalar]

/-- Every scalar takes input. -/
theorem shorter_of_readScalar {kind : TypeKind} {s s' : Source} {v : Value}
    (h : c.readScalar kind s = .done v s') : s'.rest.length < s.rest.length := by
  cases kind with
  | composite => cases h
  | unassigned code => cases h
  | primitive p =>
    rw [readScalar_primitive] at h
    obtain ⟨b, hb, -, hpast⟩ := taking_done h
    have hwidth : 0 < p.width := by cases p <;> decide
    rw [hpast.rest, List.length_append]
    omega

theorem ends_readFields {t : RecordType} {fields : List Field}
    (h : ∀ f ∈ fields, f.type.kind.isComposite = true →
      ∀ context, Ends limit (nested f.type.name context)) (slots : List Value) (fr : Frame) :
    Ends limit (c.readFields nested t fields slots fr) :=
  (Ends.law limit).readFields c (fun _ => nested) t fields (fun _ => True)
    (fun _ _ _ => trivial) (fun f hf hc context _ => h f hf hc context) slots fr trivial

/-- Behind a scalar there is less input, so the fields there may need as much less to end. -/
theorem ends_readFields_behind {t : RecordType} {before after : List Field} {g : Field}
    (hg : g.isContextual = true)
    (hbefore : ∀ f ∈ before, f.type.kind.isComposite = true →
      ∀ context, Ends limit (nested f.type.name context))
    (hafter : 0 < limit → ∀ f ∈ after, f.type.kind.isComposite = true →
      ∀ context, Ends (limit - 1) (nested f.type.name context))
    (slots : List Value) (fr : Frame) :
    Ends limit (c.readFields nested t (before ++ g :: after) slots fr) := by
  induction before generalizing slots fr with
  | nil =>
    rw [List.nil_append, readFields_cons, readField_contextual hg]
    have hscalar : Ends limit (c.readScalar g.type.kind) := (Ends.law limit).readScalar c _
    apply Ends.andThen_left (hscalar.labelled.noted _)
    intro s v s' hs h
    have hshorter : s'.rest.length < s.rest.length := by
      cases hread : c.readScalar g.type.kind s with
      | failed stop s₁ => simp [Reader.noted, Reader.labelled, hread] at h
      | done w s₁ =>
        simp only [Reader.noted, Reader.labelled, hread] at h
        cases h
        have hlt : s₁.rest.length < s.rest.length := shorter_of_readScalar hread
        exact hlt
    exact ⟨limit - 1, by omega, ends_readFields (hafter (by omega)) _ _⟩
  | cons f before ih =>
    rw [List.cons_append, readFields_cons]
    have hfield : ∀ fr, Ends limit (c.readField nested f fr) := fun fr =>
      (Ends.law limit).readField c (fun _ => nested) f fr
        fun hf => hbefore f (List.mem_cons_self ..) hf fr.context
    apply ((hfield _).labelled.noted _).andThen
    intro v
    exact ih (fun f' hf' => hbefore f' (List.mem_cons_of_mem _ hf')) _ _

/-- A reader of a declared type ends if it has a level for each byte of the input and for each type
ahead. Along a cycle each level takes a byte, and every other step leaves a type behind. -/
theorem ends_decodeRecord (hl : c.schema.Linked) (hguard : c.schema.Guarded) {levels : Nat}
    {name : String} (hname : (c.schema.declared? name).isSome = true)
    (h : (c.schema.ahead name).card + limit < levels) (context : Option Context) :
    Ends limit (c.decodeRecord levels name context) := by
  classical
  induction levels generalizing name limit context with
  | zero => omega
  | succ levels ih =>
    obtain ⟨t, hdeclared⟩ := Option.isSome_iff_exists.mp hname
    have ht : c.type? name = some t := (type?_declared hl hname).trans hdeclared
    have hfield : ∀ f ∈ t.fields, f.type.kind.isComposite = true →
        (c.schema.declared? f.type.name).isSome = true ∧ c.schema.Refers name f.type.name :=
      fun f hf hc => ⟨declared_of_type? hl ht f hf hc, t, hdeclared, f, hf, hc, rfl⟩
    have hdown : ∀ f ∈ t.fields, ¬c.schema.LeadsBack t f → f.type.kind.isComposite = true →
        ∀ context', Ends limit (c.decodeRecord levels f.type.name context') := by
      intro f hf hnot hc context'
      obtain ⟨hisSome, hrefers⟩ := hfield f hf hc
      have hreach : ¬c.schema.Reaches f.type.name name := by
        rw [← type?_name ht]
        exact fun hback => hnot ⟨hc, hback⟩
      have hlt := Schema.card_ahead_lt hrefers (Schema.mem_names_of_isSome hisSome) hreach
      exact ih hisSome (by omega) context'
    have hround : 0 < limit → ∀ f ∈ t.fields, f.type.kind.isComposite = true →
        ∀ context', Ends (limit - 1) (c.decodeRecord levels f.type.name context') := by
      intro hpos f hf hc context'
      obtain ⟨hisSome, hrefers⟩ := hfield f hf hc
      have hle := Schema.card_ahead_le hrefers
      exact ih hisSome (by omega) context'
    rw [decodeRecord_succ c levels ht]
    refine Ends.andThen ?_ fun slots => Ends.done _
    rcases hguard.split hdeclared with hnone | ⟨front, g, rest, hsplit, hg, hfront⟩
    · exact ends_readFields (fun f hf => hdown f hf (hnone f hf)) _ _
    · rw [hsplit]
      apply ends_readFields_behind hg
      · intro f hf hc context'
        exact hdown f (by simp [hsplit, hf]) (hfront f hf) hc context'
      · intro hpos f hf hc context'
        exact hround hpos f (by simp [hsplit, hf]) hc context'

/-- A reader of any type ends if it has a level for each byte, for each declared type, and for the
record itself. -/
theorem ends_of_type? (hl : c.schema.Linked) (hguard : c.schema.Guarded) (limit : Nat)
    {name : String} {t : RecordType} (ht : c.type? name = some t) (context : Option Context) :
    Ends limit (c.decodeRecord (c.schema.types.length + limit + 1) name context) := by
  rw [decodeRecord_succ c _ ht]
  refine Ends.andThen ?_ fun slots => Ends.done _
  apply ends_readFields
  intro f hf hc context'
  have hname := declared_of_type? hl ht f hf hc
  have hlt := Schema.card_ahead_lt_types (Schema.mem_names_of_isSome hname)
  exact ends_decodeRecord hl hguard hname (by omega) context'

/-- Records of a guarded schema are read to an end, whatever the input: there is a record or an
error. At no moment are more records being read than there are pairs of a declared type and a place
in the input, and one. -/
theorem decodeType_guarded {schema : Schema} {options : CodecOptions} (hs : schema.Accepted)
    (hguard : schema.Guarded) (hc : compile (some schema) options = .ok c) {name : String}
    {t : RecordType} (ht : c.type? name = some t) (context : Option Context) (s : Source) :
    ((∃ r s', c.decodeType name context s = .done r s') ∨
      ∃ e s', c.decodeType name context s = .failed (.error e) s') ∧
    ∀ levels count, c.Active levels name context s count →
      count ≤ (s.rest.length + 1) * schema.types.length + 1 := by
  have hl := linked_of_compile hs hc
  have hschema : c.schema = schema := by rw [compile_ok hc]
  rw [← hschema] at hguard ⊢
  have hends := ends_of_type? hl hguard s.rest.length ht context
  have hnot : ¬TooDeep
      (c.decodeRecord (c.schema.types.length + s.rest.length + 1) name context s) :=
    hends.enough s (Nat.le_refl _)
  constructor
  · cases hd : c.decodeType name context s with
    | done r s' => exact .inl ⟨_, _, rfl⟩
    | failed stop s' =>
      rcases stopsAtUnreadable_of_decodeType hs hc ht hd with rfl | ⟨e, -, rfl, -⟩
      · exact absurd (tooDeep_of_decodeType hl hd _) hnot
      · exact .inr ⟨e, s', rfl⟩
  · intro levels count hactive
    apply hactive.le
    intro htoo
    rw [Nat.mul_comm] at htoo
    exact hnot (tooDeep_of_places hl htoo _)

theorem decodeType_guarded_two_types :
    ∃ s c, Schema.parse ("types:\n  Branch:\n  - id: n\n    type: u8\n  - id: twigs\n" ++
        "    type: '[]Twig'\n    repeat: Count(n)\n  Twig:\n  - id: more\n    type: bool\n" ++
        "  - id: next\n    type: Branch\n    if: more\n" ++
        "items:\n- id: top\n  type: Branch").toUTF8.toList = .ok s ∧
      compile (some s) .strict = .ok c ∧ s.Guarded ∧
      ((∃ r s', c.decodeType c.schema.root.name none (.ofBytes [1, 1, 0]) = .done r s') ∨
        ∃ e s', c.decodeType c.schema.root.name none (.ofBytes [1, 1, 0]) =
          .failed (.error e) s') ∧
      ∃ count, 3 < count ∧ count ≤ (3 + 1) * 2 + 1 ∧
        c.Active (c.depthLimit 3) c.schema.root.name none (.ofBytes [1, 1, 0]) count := by
  refine exists_of_parse (fun c => some (c.schema.types.length,
    c.schema.types.all fun t => t.fields.head?.any Field.isContextual,
    decide (TooDeep (c.decodeRecord 3 c.schema.root.name none (.ofBytes [1, 1, 0]))),
    decide (TooDeep
      (c.decodeRecord (c.depthLimit 3) c.schema.root.name none (.ofBytes [1, 1, 0])))))
    (2, true, true, false) (by decide +kernel) ?_
  intro s c hs hc h
  have hschema : c.schema = s := by rw [compile_ok hc]
  simp only [Option.some.injEq, Prod.mk.injEq, List.all_eq_true, decide_eq_true_eq,
    decide_eq_false_iff_not] at h
  obtain ⟨htypes, hhead, htoo, hnot⟩ := h
  have hguard : s.Guarded := hschema ▸ Schema.guarded_of_head hhead
  obtain ⟨hends, hle⟩ :=
    decodeType_guarded (.of_parse hs) hguard hc c.type?_root none (.ofBytes [1, 1, 0])
  obtain ⟨count, hactive, hlt⟩ : ∃ count, c.Active (c.depthLimit 3) c.schema.root.name none
      (.ofBytes [1, 1, 0]) count ∧ 3 < count := by
    by_contra hnone
    apply (not_tooDeep_iff_active hnot).mpr _ htoo
    intro count hactive
    by_contra hlt
    exact hnone ⟨count, hactive, Nat.lt_of_not_le hlt⟩
  rw [hschema] at htypes
  have hbound := hle _ count hactive
  rw [htypes] at hbound
  exact ⟨hguard, hends, count, hlt, hbound, hactive⟩

end Codec

end Savefile
