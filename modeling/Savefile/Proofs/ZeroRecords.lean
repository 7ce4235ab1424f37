import Savefile.Proofs.Obtained
import Savefile.Proofs.Width
import Savefile.Proofs.Writer

/-!
# New records

A new record is made for every type: it holds new records where its type contains others, and these
never lead back to a type that is still being made, since no type contains itself. All that is
written of it is zeros, as many as the type is wide if it has a width.
-/
namespace Savefile

theorem Scalar.encode_zero (order : ByteOrder) (p : Primitive) :
    (Scalar.zero p).encode order = List.replicate p.width 0 := by
  cases p <;> cases order <;> rfl

namespace Writer

/-- Writing goes well and adds nothing but zeros. -/
def WritesZeros (p : Writer) : Prop :=
  ∀ out, ∃ out' n, p out = .done () out' ∧ out.Gains out' (List.replicate n 0)

theorem writesZeros_done : WritesZeros fun out => .done () out :=
  fun out => ⟨out, 0, rfl, .refl out⟩

theorem WritesZeros.andThen {p q : Writer} (hp : WritesZeros p) (hq : WritesZeros q)
    (label : EncodeError → EncodeError) : WritesZeros (andThen label p q) := by
  intro out
  obtain ⟨out₁, n₁, h₁, hgain₁⟩ := hp out
  obtain ⟨out₂, n₂, h₂, hgain₂⟩ := hq out₁
  refine ⟨out₂, n₁ + n₂, ?_, ?_⟩
  · rw [Writer.andThen, h₁]
    exact h₂
  · rw [List.replicate_add]
    exact hgain₁.trans hgain₂

theorem WritesZeros.noted {q : Writer} (hq : WritesZeros q) (note : Nat → Note) :
    WritesZeros fun out => q (out.note (note out.count)) := by
  intro out
  obtain ⟨out', n, h, hgain⟩ := hq (out.note (note out.count))
  exact ⟨out', n, h, hgain.bytes, hgain.count⟩

end Writer

namespace Codec

section Made

variable {c : Codec} {nested nested' : String → Except NewError Record}

theorem zeroSlots_cons {f : Field} {fs : List Field} {v : Value} {vs : List Value}
    (hv : ZeroSlot nested f v) (hvs : zeroSlots nested fs = .ok vs) :
    zeroSlots nested (f :: fs) = .ok (v :: vs) := by
  unfold zeroSlots
  rw [hvs]
  cases hv with
  | scalar hr hc hk => simp only [Field.shape, Field.elementShape, hr, hc, hk]; rfl
  | record hr hc hk hnested =>
    simp only [Field.shape, Field.elementShape, hr, hc, hk, hnested]
    rfl
  | absent hr hc => simp only [Field.shape, Field.elementShape, hr, hc]; rfl
  | list hr => simp only [Field.shape, hr]; rfl

/-- There are values for new fields if there are the records that the fields hold in full. -/
theorem exists_zeroSlots {fields : List Field}
    (hnested : ∀ f ∈ fields, f.isPlainComposite = true → ∃ r, nested f.type.name = .ok r) :
    ∃ vs, zeroSlots nested fields = .ok vs := by
  induction fields with
  | nil => exact ⟨[], rfl⟩
  | cons f fs ih =>
    rw [List.forall_mem_cons] at hnested
    obtain ⟨vs, hvs⟩ := ih hnested.2
    have hslot : ∃ v, ZeroSlot nested f v := by
      cases hr : f.repetition with
      | some r => exact ⟨_, .list hr⟩
      | none =>
        cases hc : f.condition with
        | some cond => exact ⟨_, .absent hr hc⟩
        | none =>
          cases hk : f.type.kind.isComposite with
          | false => exact ⟨_, .scalar hr hc hk⟩
          | true =>
            obtain ⟨r, hnew⟩ := hnested.1 (by simp [Field.isPlainComposite, hr, hc, hk])
            exact ⟨_, .record hr hc hk hnew⟩
    obtain ⟨v, hv⟩ := hslot
    exact ⟨v :: vs, zeroSlots_cons hv hvs⟩

theorem ZeroSlot.mono (hnested : ∀ name r, nested name = .ok r → nested' name = .ok r) {f : Field}
    {v : Value} (h : ZeroSlot nested f v) : ZeroSlot nested' f v := by
  cases h with
  | scalar hr hc hk => exact .scalar hr hc hk
  | record hr hc hk hnew => exact .record hr hc hk (hnested _ _ hnew)
  | absent hr hc => exact .absent hr hc
  | list hr => exact .list hr

theorem zeroSlots_mono (hnested : ∀ name r, nested name = .ok r → nested' name = .ok r)
    {fields : List Field} {vs : List Value} (h : zeroSlots nested fields = .ok vs) :
    zeroSlots nested' fields = .ok vs := by
  induction fields generalizing vs with
  | nil => exact h
  | cons f fs ih =>
    obtain ⟨v, vs', rfl, hv, hvs⟩ := zeroSlots_cons_ok h
    exact zeroSlots_cons (hv.mono hnested) (ih hvs)

theorem zeroWithin_succ {depth : Nat} {outer : List String} {name : String} {t : RecordType}
    {slots : List Value} (ht : c.type? name = some t) (houter : t.name ∉ outer)
    (hslots : zeroSlots (c.zeroWithin depth (t.name :: outer)) t.fields = .ok slots) :
    c.zeroWithin (depth + 1) outer name = .ok ⟨t, slots⟩ := by
  have hfresh : outer.contains t.name = false := by simpa using houter
  simp only [zeroWithin, ht, hfresh, hslots]
  rfl

/-- More levels make no other record. -/
theorem zeroWithin_mono {depth depth' : Nat} (hdepth : depth ≤ depth') {outer : List String}
    {name : String} {r : Record} (h : c.zeroWithin depth outer name = .ok r) :
    c.zeroWithin depth' outer name = .ok r := by
  induction depth generalizing depth' outer name r with
  | zero => cases h
  | succ depth ih =>
    obtain ⟨k, rfl⟩ : ∃ k, depth' = k + 1 := ⟨depth' - 1, by omega⟩
    obtain ⟨ht, houter, hslots⟩ := zeroWithin_succ_ok h
    exact zeroWithin_succ ht houter (zeroSlots_mono (fun _ _ => ih (by omega)) hslots)

/-- The types in which a new record is being made lead to its own type. -/
def Above (c : Codec) (outer : List String) (name : String) : Prop :=
  ∀ x ∈ outer, x = c.schema.root.name ∧ (c.schema.declared? name).isSome = true ∨
    Relation.TransGen c.schema.Contains x name

/-- A type is not inside itself. -/
theorem Above.fresh (hl : c.schema.Linked)
    (hacyclic : ∀ t ∈ c.schema.types, ¬Relation.TransGen c.schema.Contains t.name t.name)
    {outer : List String} {name : String} (h : c.Above outer name) : name ∉ outer := by
  intro hmem
  rcases h name hmem with ⟨rfl, hdeclared⟩ | hcycle
  · rw [hl.rootApart] at hdeclared
    cases hdeclared
  · obtain ⟨t, ht, rfl⟩ := Schema.exists_type_of_transGen hcycle
    exact hacyclic t ht hcycle

theorem Above.cons {outer : List String} {name : String} {t : RecordType}
    (hl : c.schema.Linked) (ht : c.type? name = some t) (h : c.Above outer name) {f : Field}
    (hf : f ∈ t.fields) (hplain : f.isPlainComposite = true) :
    c.Above (name :: outer) f.type.name := by
  have hdeclared := declared_of_type? hl ht f hf (Field.isComposite_of_isPlainComposite hplain)
  by_cases hroot : c.isRoot name = true
  · -- Nothing leads to the root, so it stands outermost.
    have hname : name = c.schema.root.name := by simpa [isRoot] using hroot
    have hinside : ∀ x, ¬Relation.TransGen c.schema.Contains x name := by
      intro x hx
      obtain ⟨y, -, u, hu, g, hg, hgplain, hgname⟩ := Relation.TransGen.tail'_iff.mp hx
      have hnested := hl.declared u (.inl (Schema.mem_of_declared? hu)) g hg
        (Field.isComposite_of_isPlainComposite hgplain)
      rw [hgname, hname, hl.rootApart] at hnested
      cases hnested
    intro x hx
    rcases List.mem_cons.mp hx with rfl | hx
    · exact .inl ⟨hname, hdeclared⟩
    · rcases h x hx with ⟨hx, -⟩ | hx
      · exact .inl ⟨hx, hdeclared⟩
      · exact absurd hx (hinside x)
  · have htype : c.schema.declared? name = some t := by
      rwa [type?, if_neg hroot] at ht
    have hcontains : c.schema.Contains name f.type.name := ⟨t, htype, f, hf, hplain, rfl⟩
    intro x hx
    rcases List.mem_cons.mp hx with rfl | hx
    · exact .inr (.single hcontains)
    · rcases h x hx with ⟨hx, -⟩ | hx
      · exact .inl ⟨hx, hdeclared⟩
      · exact .inr (hx.tail hcontains)

/-- As many levels as there are types, the root among them, are enough for a new record: the types
in which it is being made are different ones. -/
theorem exists_zeroWithin (hl : c.schema.Linked)
    (hacyclic : ∀ t ∈ c.schema.types, ¬Relation.TransGen c.schema.Contains t.name t.name)
    {depth : Nat} {outer : List String} {name : String} {t : RecordType}
    (ht : c.type? name = some t) (habove : c.Above outer name) (hnodup : outer.Nodup)
    (hnames : ∀ x ∈ outer, x ∈ c.schema.root.name :: c.schema.types.map (·.name))
    (hdepth : c.schema.types.length + 1 < depth + outer.length) :
    ∃ r, c.zeroWithin depth outer name = .ok r := by
  induction depth generalizing outer name t with
  | zero =>
    have hlength := (List.subperm_of_subset hnodup hnames).length_le
    rw [List.length_cons, List.length_map] at hlength
    omega
  | succ depth ih =>
    have hfresh := habove.fresh hl hacyclic
    have hname := type?_name ht
    have hslots : ∃ slots,
        zeroSlots (c.zeroWithin depth (t.name :: outer)) t.fields = .ok slots := by
      apply exists_zeroSlots
      intro f hf hplain
      rw [hname]
      have hdeclared :=
        declared_of_type? hl ht f hf (Field.isComposite_of_isPlainComposite hplain)
      obtain ⟨u, hu⟩ := Option.isSome_iff_exists.mp hdeclared
      refine ih ((type?_declared hl hdeclared).trans hu) (habove.cons hl ht hf hplain)
        (List.nodup_cons.mpr ⟨hfresh, hnodup⟩) ?_ ?_
      · refine List.forall_mem_cons.mpr ⟨?_, hnames⟩
        rcases mem_of_type? ht with hmem | rfl
        · rw [← hname]
          exact List.mem_cons_of_mem _ (List.mem_map_of_mem hmem)
        · rw [← hname]
          exact List.mem_cons_self ..
      · rw [List.length_cons]
        omega
    obtain ⟨slots, hslots⟩ := hslots
    exact ⟨_, zeroWithin_succ ht (by rwa [hname]) hslots⟩

end Made

section Written

open Writer

variable {c : Codec} {options : CodecOptions} {nested : String → Except NewError Record}

theorem ZeroSlot.writesZeros (hlenient : options.lenient = true) {f : Field}
    (hf : f.type.kind = .composite ∨ ∃ p, f.type.kind = .primitive p)
    (hnested : ∀ r, f.type.kind.isComposite = true → nested f.type.name = .ok r →
      ∀ fr, WritesZeros ((c.under options).writeValue .memory f none fr r.toValue))
    {v : Value} (h : ZeroSlot nested f v) (fr : Frame) :
    WritesZeros ((c.under options).writeValue .memory f f.repetition fr v) := by
  intro out
  cases h with
  | scalar hr _ hk =>
    obtain ⟨p, hp⟩ : ∃ p, f.type.kind = .primitive p := by
      rcases hf with hcomposite | hp
      · rw [hcomposite] at hk
        cases hk
      · exact hp
    have hkind : f.type.kind = .primitive (Scalar.zero p).kind := by
      rw [hp, Scalar.zero, Scalar.kind_ofBits]
    obtain ⟨out', h, hgain⟩ := (c.under options).writeSingle_scalar hkind out
    rw [cells, Scalar.map_byte_cells, Scalar.encode_zero] at hgain
    rw [hr, hp, zeroScalar]
    unfold writeValue
    exact ⟨out', _, h, hgain⟩
  | record hr _ hk hnew =>
    rw [hr]
    exact hnested _ hk hnew fr out
  | absent hr hc =>
    obtain ⟨out', h, hgain⟩ := writeSingle_absent (c := c.under options) hc out
    rw [map_byte_room] at hgain
    rw [hr]
    unfold writeValue
    exact ⟨out', _, h, hgain⟩
  | @list r hr =>
    have hnone : (c.under options).countStop? r fr.scope 0 = none := by
      unfold countStop?
      exact if_pos hlenient
    rw [hr, writeValue]
    simp only [List.length_nil, hnone, writeItems]
    exact writesZeros_done out

theorem writesZeros_zeroSlots (hlenient : options.lenient = true) (t own : RecordType)
    {fields : List Field} (hassigned : Schema.Assigned fields)
    (hnested : ∀ f ∈ fields, ∀ r, f.type.kind.isComposite = true → nested f.type.name = .ok r →
      ∀ fr, WritesZeros ((c.under options).writeValue .memory f none fr r.toValue))
    {vs : List Value} (h : zeroSlots nested fields = .ok vs) (before : List Value) (fr : Frame) :
    WritesZeros ((c.under options).writeSlots .memory t own fields before fr vs) := by
  induction fields generalizing vs before fr with
  | nil =>
    cases h
    intro out
    rw [writeSlots]
    exact writesZeros_done out
  | cons f fs ih =>
    obtain ⟨hf, hfs⟩ := List.forall_mem_cons.mp hassigned
    obtain ⟨hnestedf, hnestedfs⟩ := List.forall_mem_cons.mp hnested
    obtain ⟨v, vs', rfl, hv, hvs⟩ := zeroSlots_cons_ok h
    rw [writeSlots_cons]
    apply WritesZeros.andThen
    · exact hv.writesZeros hlenient hf hnestedf _
    · exact (ih hfs hnestedfs hvs _ _).noted _

theorem length_of_zeroSlots {fields : List Field} {vs : List Value}
    (h : zeroSlots nested fields = .ok vs) : vs.length = fields.length := by
  induction fields generalizing vs with
  | nil =>
    cases h
    rfl
  | cons f fs ih =>
    obtain ⟨v, vs', rfl, -, hvs⟩ := zeroSlots_cons_ok h
    rw [List.length_cons, List.length_cons, ih hvs]

variable (options) in
/-- Where a field holds a new record, nothing but zeros is written. -/
theorem writesZeros_zeroWithin (hlenient : options.lenient = true)
    (hassigned : ∀ name t, c.type? name = some t → Schema.Assigned t.fields) {depth : Nat}
    {outer : List String} {f : Field} (hf : f.type.kind.isComposite = true) {r : Record}
    (h : c.zeroWithin depth outer f.type.name = .ok r) (fr : Frame) :
    WritesZeros ((c.under options).writeValue .memory f none fr r.toValue) := by
  induction depth generalizing outer f r fr with
  | zero => cases h
  | succ depth ih =>
    obtain ⟨ht, -, hslots⟩ := zeroWithin_succ_ok h
    have hw : (c.under options).writable? f.type.name r.type r.slots = some r.type := by
      have ht' : (c.under options).type? f.type.name = some r.type := ht
      simp [writable?, ht', length_of_zeroSlots hslots]
    rw [Record.toValue, writeValue_record _ _ hf hw]
    exact writesZeros_zeroSlots hlenient _ _ (hassigned _ _ ht)
      (fun g _ r' hg hnew fr => ih hg hnew fr) hslots [] _

end Written

/-- A record of a type with a width is written as so many bytes. -/
theorem length_of_encodeType {c : Codec} (hl : c.schema.Linked) {name : String} {w : Nat}
    (hw : c.schema.fixedWidth ⟨name, .composite⟩ = some w) {sink : Sink}
    {context : Option Context} {r : Record} {out out' : Output}
    (h : c.encodeRecord sink name context (some r) out = .done () out') :
    ∃ b, out.Gains out' b ∧ b.length = w := by
  rw [encodeRecord_eq_writeValue (t := ⟨name, .composite⟩) c sink rfl] at h
  exact writesExactly_writeValue (f := ⟨"", ⟨name, .composite⟩, none, none⟩) hl sink
    (Nat.le_refl _) ⟨rfl, by simp⟩ hw _ _ out out' h

theorem exists_newRecord {s : Schema} {options : CodecOptions} {c : Codec} (hs : s.Accepted)
    (hc : compile (some s) options = .ok c) {name : String} {t : RecordType}
    (ht : c.type? name = some t) : ∃ r, c.newRecord name = .ok r ∧ r.type = t := by
  have hlinked := linked_of_compile hs hc
  obtain rfl := compile_ok hc
  obtain ⟨r, hr⟩ : ∃ r, (⟨s, options⟩ : Codec).newRecord name = .ok r :=
    exists_zeroWithin hlinked hs.wellFormed.acyclic ht (by simp [Above]) List.nodup_nil (by simp)
      (by simp)
  obtain ⟨htype, -, -⟩ := zeroWithin_succ_ok hr
  exact ⟨r, hr, Option.some.inj (htype.symm.trans ht)⟩

/-- There is a new record of every type of a codec, and any number of levels that is large enough
makes the same one. It is well shaped, and a lenient codec writes it, in whatever context, as zeros
only: as many as the type is wide, if it has a width. -/
theorem newRecord_writes_zeros {s : Schema} {options : CodecOptions} {journal : Option String}
    {c lenient : Codec} (hs : s.Accepted) (hc : compile (some s) options = .ok c)
    (hlenient : compile (some s) ⟨true, journal⟩ = .ok lenient) {name : String} {t : RecordType}
    (ht : c.type? name = some t) :
    ∃ r, c.newRecord name = .ok r ∧
      (∀ depth, s.types.length + 2 ≤ depth → c.zeroWithin depth [] name = .ok r) ∧
      r.type = t ∧ c.Shaped r ∧
      ∀ context, ∃ out, lenient.encodeType .memory name context (some r) = .done () out ∧
        (∀ b ∈ out.bytes, b = 0) ∧
        ∀ w, s.fixedWidth ⟨name, .composite⟩ = some w → out.bytes.length = w := by
  have hwell := hs.wellFormed
  have hlinked := linked_of_compile hs hc
  have hlinked' := linked_of_compile hs hlenient
  obtain rfl := compile_ok hc
  obtain rfl := compile_ok hlenient
  have hassigned : ∀ name t, (⟨s, options⟩ : Codec).type? name = some t →
      Schema.Assigned t.fields := fun _ t ht => hs.assigned t (mem_of_type? ht)
  obtain ⟨r, hr⟩ : ∃ r, (⟨s, options⟩ : Codec).newRecord name = .ok r :=
    exists_zeroWithin hlinked hwell.acyclic ht (by simp [Above]) List.nodup_nil (by simp)
      (by simp)
  obtain ⟨htype, -, -⟩ := zeroWithin_succ_ok hr
  refine ⟨r, hr, fun depth hdepth => zeroWithin_mono hdepth hr,
    Option.some.inj (htype.symm.trans ht), (shaped_of_zeroWithin hassigned hr).2, ?_⟩
  intro context
  obtain ⟨out, n, hout, hgain⟩ := writesZeros_zeroWithin ⟨true, journal⟩ rfl hassigned
    (f := ⟨"", ⟨name, .composite⟩, none, none⟩) rfl hr ⟨[], context⟩ .empty
  have hrecord : (⟨s, ⟨true, journal⟩⟩ : Codec).encodeRecord .memory name context (some r) .empty =
      .done () out := by
    rw [encodeRecord_eq_writeValue (t := ⟨name, .composite⟩) _ _ rfl]
    exact hout
  have hbytes := hgain.of_empty.1
  refine ⟨out.note (.encodedRecord name out.count), by simp only [encodeType, hrecord], ?_, ?_⟩
  · intro b hb
    have hb : b ∈ out.bytes := hb
    rw [hbytes] at hb
    exact List.eq_of_mem_replicate hb
  · intro w hw
    obtain ⟨b, hb, hlength⟩ := length_of_encodeType hlinked' hw hrecord
    have hlast : (out.note (.encodedRecord name out.count)).bytes = out.bytes := rfl
    rw [hlast, hb.of_empty.1, hlength]

/-- A type that holds another twice, a field that keeps its room while absent, and a list. -/
theorem newRecord_writes_zeros_shared_type :
    ∃ s c, Schema.parse ("types:\n  P:\n  - id: a\n    type: u8\n  - id: b\n    type: u16\n" ++
        "    if: a > 3\n    advance_if_false: true\n  Q:\n  - id: x\n    type: P\n" ++
        "  - id: y\n    type: P\n  - id: ok\n    type: bool\nitems:\n- id: q\n  type: Q\n" ++
        "- id: more\n  type: '[]Q'\n  repeat: Count(q.x.a)").toUTF8.toList = .ok s ∧
      compile (some s) ⟨true, none⟩ = .ok c ∧ s.fixedWidth ⟨"Q", .composite⟩ = some 7 ∧
      (∃ t, c.type? "Q" = some t) ∧
      ∃ r out, c.newRecord "Q" = .ok r ∧ c.Shaped r ∧
        c.encodeType .memory "Q" none (some r) = .done () out ∧
        out.bytes = [0, 0, 0, 0, 0, 0, 0] := by
  refine exists_of_parse (fun c => (c.schema.fixedWidth ⟨"Q", .composite⟩).bind fun w =>
    (c.type? "Q").map fun _ => w) 7 (by decide +kernel) ?_
  intro s c hs hc h
  obtain ⟨w, hw, h⟩ := Option.bind_eq_some_iff.mp h
  obtain ⟨t, ht, rfl⟩ := Option.map_eq_some_iff.mp h
  have hw : s.fixedWidth ⟨"Q", .composite⟩ = some 7 := by
    rw [compile_ok hc] at hw
    exact hw
  obtain ⟨r, hr, -, -, hshaped, hzeros⟩ := newRecord_writes_zeros (.of_parse hs) hc hc ht
  obtain ⟨out, hout, hall, hwidth⟩ := hzeros none
  refine ⟨hw, ⟨t, ht⟩, r, out, hr, hshaped, hout, ?_⟩
  rw [List.eq_replicate_of_mem hall, hwidth 7 hw]
  rfl

end Codec

end Savefile
