import Savefile.Proofs.Depth
import Savefile.Proofs.Reading
import Savefile.Proofs.Writing

/-!
# Saving and loading

What is loaded can be saved and loaded again, and the saved bytes are the loaded ones up to truth
values and the room of absent fields. The records that survive saving and loading are those that are
consistent and whose conditions have a value.
-/
namespace Savefile

namespace Value

mutual

theorem equal_self : ∀ v : Value, v.equal v = true
  | .null => rfl
  | .scalar s => by simp [equal]
  | .list items => by
    rw [equal]
    exact equalItems_self items
  | .record t slots => by
    rw [equal, equalItems_self slots]
    simp
  | .foreign _ _ => by simp [equal]

theorem equalItems_self : ∀ vs : List Value, equalItems vs vs = true
  | [] => rfl
  | v :: vs => by
    rw [equalItems, equal_self v, equalItems_self vs]
    rfl

end

theorem baseMisfit?_eq_none_iff {type : TypeRef} {v : Value} : v.baseMisfit? type = none ↔
    (∃ s, v = .scalar s ∧ type.kind = .primitive s.kind) ∨
      ∃ t slots, v = .record t slots ∧ type.kind.isComposite = true ∧ t.name = type.name := by
  unfold baseMisfit?
  by_cases hc : type.kind.isComposite = true
  · have hk : ∀ p, type.kind ≠ .primitive p := by
      intro p hp
      simp [hp, TypeKind.isComposite] at hc
    cases v <;> simp [hc, hk]
  · cases v <;> simp [hc, isScalarOf]

theorem itemsMisfit?_eq_none_iff {f : Field} {vs : List Value} (i : Nat) :
    itemsMisfit? f i vs = none ↔ ∀ v ∈ vs, v.elementMisfit? f = none := by
  induction vs generalizing i with
  | nil => simp [itemsMisfit?]
  | cons v vs ih =>
    unfold itemsMisfit?
    cases hv : v.elementMisfit? f with
    | some m => simp [hv]
    | none => simp [hv, ih]

end Value

theorem Record.equal_self (r : Record) : r.equal r = true := by
  rw [Record.equal, Value.equalItems_self]
  simp

namespace Field

variable {f : Field} {scope : Scope} {v : Value}

theorem Holds.elementMisfit? (h : f.Holds scope v) : v.elementMisfit? f = none := by
  unfold Value.elementMisfit?
  split
  · rfl
  · rename_i hnull
    rw [Value.baseMisfit?_eq_none_iff]
    cases h with
    | absent hc _ => simp [hc, Value.isNull] at hnull
    | @scalar s _ hk => exact Or.inl ⟨s, rfl, hk⟩
    | @record t slots _ hc hname => exact Or.inr ⟨t, slots, rfl, hc, hname⟩

/-- The condition of what can be held has a value, which says whether it is there. -/
theorem Holds.condition {cond : Condition} (h : f.Holds scope v) (hc : f.condition = some cond) :
    cond.expr.evalBool scope = .ok !v.isNull := by
  cases h with
  | @absent cond' hc' hfalse =>
    obtain rfl : cond' = cond := Option.some.inj (hc'.symm.trans hc)
    exact hfalse
  | scalar hpresent _ => exact hpresent cond hc
  | record hpresent _ _ => exact hpresent cond hc

theorem holds_of_shape (hshape : v.elementMisfit? f = none)
    (hcond : ∀ cond, f.condition = some cond → cond.expr.evalBool scope = .ok !v.isNull) :
    f.Holds scope v := by
  unfold Value.elementMisfit? at hshape
  split at hshape
  · rename_i hnull
    rw [Bool.and_eq_true, Option.isSome_iff_exists] at hnull
    obtain ⟨⟨cond, hc⟩, hnull⟩ := hnull
    cases v with
    | null => exact .absent hc (hcond cond hc)
    | scalar | list | record | foreign => simp [Value.isNull] at hnull
  · rcases Value.baseMisfit?_eq_none_iff.mp hshape with ⟨s, rfl, hk⟩ | ⟨t, slots, rfl, hc, hname⟩
    · exact .scalar hcond hk
    · exact .record hcond hc hname

theorem elements_single (h : f.repetition = none) (v : Value) : f.elements v = [v] := by
  simp only [elements, h]

theorem elements_list {r : Repetition} (h : f.repetition = some r) (items : List Value) :
    f.elements (.list items) = items := by
  simp only [elements, h]

end Field

namespace Codec

variable {c : Codec} {f : Field} {fr : Frame} {v : Value}

theorem SlotSettled.condition (h : c.SlotSettled f fr v) {cond : Condition}
    (hc : f.condition = some cond) {e : Value} (he : e ∈ f.elements v) :
    cond.expr.evalBool fr.scope = .ok !e.isNull := by
  obtain ⟨b, hb⟩ := h.decided cond hc e he
  have hpresence := h.presence cond hc e he
  rw [hb] at hpresence ⊢
  cases b <;> simpa using hpresence

theorem SlotSettled.fits (h : c.SlotSettled f fr v) (hv : c.Throughout c.Fits fr.context v) :
    c.Fits f fr v := by
  have hshape := h.shape
  have hcond : ∀ e ∈ f.elements v, ∀ cond, f.condition = some cond →
      cond.expr.evalBool fr.scope = .ok !e.isNull := fun e he cond hc => h.condition hc he
  unfold Value.misfit? at hshape
  cases hr : f.repetition with
  | none =>
    rw [Field.elements_single hr] at hcond
    rw [hr] at hshape
    exact .single hr (Field.holds_of_shape hshape (hcond v (List.mem_singleton_self v)))
  | some r =>
    rw [hr, Option.isSome_some, if_pos rfl] at hshape
    split at hshape
    · rename_i items
      rw [Value.itemsMisfit?_eq_none_iff] at hshape
      rw [Throughout, throughoutItems_iff] at hv
      rw [Field.elements_list hr] at hcond
      have hholds : ∀ e ∈ items, f.Holds fr.scope e :=
        fun e he => Field.holds_of_shape (hshape e he) (hcond e he)
      have hcount := h.count r hr
      have hnonempty := h.nonempty
      rw [Field.elements_list hr] at hcount hnonempty
      refine .list hr hcount hholds ?_
      -- An element without cells would be written as no bytes.
      intro hlong e he hnil
      obtain ⟨out, hout, hne⟩ := hnonempty hlong e he
      obtain ⟨out', hout', hgain⟩ := writeValue_holds e .empty (hholds e he) (hv e he)
      rw [hout] at hout'
      cases hout'
      apply hne
      rw [hgain.bytes, hnil]
      rfl
    · cases hshape

theorem Fits.settled (h : c.Fits f fr v) (hv : c.Throughout c.Fits fr.context v) :
    c.SlotSettled f fr v := by
  have hholds : ∀ e ∈ f.elements v, f.Holds fr.scope e := by
    cases h with
    | single hr hholds => simpa [Field.elements_single hr] using hholds
    | list hr _ hholds _ => simpa [Field.elements_list hr] using hholds
  refine ⟨⟨?_, ?_, ?_, ?_⟩, ?_⟩
  · cases h with
    | single hr hvalue => simpa [Value.misfit?, hr] using hvalue.elementMisfit?
    | list hr _ hitems _ =>
      rw [Value.misfit?, hr, Option.isSome_some, if_pos rfl, Value.itemsMisfit?_eq_none_iff]
      exact fun e he => (hitems e he).elementMisfit?
  · intro cond hc e he
    simp [(hholds e he).condition hc]
  · intro r hr
    cases h with
    | single hr' _ => simp [hr'] at hr
    | @list r' items hr' hcount _ _ =>
      obtain rfl : r' = r := Option.some.inj (hr'.symm.trans hr)
      rw [Field.elements_list hr']
      exact hcount
  · intro hlong e he
    cases h with
    | single hr _ => simp [Field.elements_single hr, emptyElementLimit] at hlong
    | list hr _ hitems hne =>
      rw [Field.elements_list hr] at hlong he
      rw [Throughout, throughoutItems_iff] at hv
      obtain ⟨out, hout, hgain⟩ := writeValue_holds e .empty (hitems e he) (hv e he)
      refine ⟨out, hout, ?_⟩
      rw [hgain.bytes]
      simpa [Output.bytes, Output.empty] using hne hlong e he
  · intro cond hc e he
    exact ⟨_, (hholds e he).condition hc⟩

theorem settled_iff_fits {r : Record} :
    c.Settled r ↔ r.type = c.schema.root ∧ c.Throughout c.Fits none r.toValue := by
  constructor
  · intro h
    exact ⟨h.root, Throughout.imp (fun _ _ _ hs _ hv => hs.fits hv) none _ h.slots⟩
  · rintro ⟨hroot, h⟩
    exact ⟨hroot, Throughout.imp (fun _ _ _ hs hv _ => hs.settled hv) none _ h⟩

variable {data b : List UInt8} {r : Record} {n : Nat}

theorem fits_of_decodePrefix (h : c.decodePrefix data = .ok (r, n)) :
    r.type = c.schema.root ∧ c.Throughout c.Fits none r.toValue ∧
      n ≤ data.length ∧ Spells (c.recordCells r) (data.take n) := by
  obtain ⟨d, s', hd, rfl⟩ := done_of_decodePrefix h
  obtain ⟨hname, hfits, b, hpast, hspells⟩ := decodeRecord_sound c d _ _ _ _ _ hd
  have hrest : data = b ++ s'.rest := hpast.rest
  have hoffset : s'.offset = b.length := hpast.offset.trans (Nat.zero_add _)
  refine ⟨?_, hfits, ?_, ?_⟩
  · have ht := hfits
    rw [Record.toValue, Throughout, hname, type?_root] at ht
    exact (Option.some.inj ht.1).symm
  · rw [hoffset, hrest, List.length_append]
    exact Nat.le_add_right _ _
  · rw [hoffset, hrest, List.take_left]
    exact hspells

theorem decodePrefix_of_fits (hl : c.schema.Linked) (hroot : r.type = c.schema.root)
    (hfits : c.Throughout c.Fits none r.toValue) (hspells : Spells (c.recordCells r) b)
    (t : List UInt8) : c.decodePrefix (b ++ t) = .ok (r, b.length) := by
  obtain ⟨s', hs', hpast⟩ := decodeRecord_complete c (sizeOf r.toValue) r none (.ofBytes (b ++ t)) b t
    (Nat.le_refl _) hfits hspells rfl rfl
  rw [hroot] at hs'
  have h := decodePrefix_of_done hl hs'
  have hoffset : s'.offset = b.length := hpast.offset.trans (Nat.zero_add _)
  rwa [hoffset] at h

/-- What is loaded can be saved: the bytes are those that were loaded, except that a truth value is
saved as zero or one and the room of an absent field as zeros. Whatever follows these bytes, loading
them gives the record again. -/
theorem encode_decodePrefix {s : Schema} {options : CodecOptions} (hs : s.Accepted)
    (hc : compile (some s) options = .ok c) (h : c.decodePrefix data = .ok (r, n)) :
    ∃ out, c.encode (some r) = .ok out ∧ out.length = n ∧ n ≤ data.length ∧
      (c.recordCells r).length = n ∧
      out = List.zipWith Cell.settle (c.recordCells r) (data.take n) ∧
      (∀ t, c.decodePrefix (out ++ t) = .ok (r, n)) ∧ r.equal r = true := by
  have hl := linked_of_compile hs hc
  obtain ⟨hroot, hfits, hn, hspells⟩ := fits_of_decodePrefix h
  have hlength : (c.recordCells r).length = n := by
    rw [← hspells.length_eq, List.length_take]
    omega
  have hwritten : ((c.recordCells r).map Cell.byte).length = n := by
    rw [List.length_map, hlength]
  refine ⟨(c.recordCells r).map Cell.byte, encode_fits (by rw [hroot]) hfits, hwritten, hn,
    hlength, hspells.zipWith_settle.symm, ?_, r.equal_self⟩
  intro t
  have ht := decodePrefix_of_fits hl hroot hfits (Spells.written _) t
  rwa [hwritten] at ht

theorem encode_decodePrefix_truth_and_room :
    ∃ s c, Schema.parse ("items:\n- id: a\n  type: bool\n- id: b\n  type: u8\n" ++
        "  if: a == false\n  advance_if_false: true").toUTF8.toList = .ok s ∧
      compile (some s) .strict = .ok c ∧ ∃ r, c.decodePrefix [7, 9, 5] = .ok (r, 2) ∧
        c.encode (some r) = .ok [1, 0] ∧ c.decodePrefix [1, 0, 5] = .ok (r, 2) := by
  refine exists_of_parse (fun c => (c.decodePrefix [7, 9, 5]).toOption.bind fun rn =>
    (c.encode (some rn.1)).toOption.map fun out => (rn.2, out)) (2, [1, 0]) (by decide +kernel) ?_
  intro s c hs hc h
  obtain ⟨⟨r, n⟩, hr, h⟩ := Option.bind_eq_some_iff.mp h
  obtain ⟨out, hout, h⟩ := Option.map_eq_some_iff.mp h
  cases h
  have hr := eq_ok_of_toOption hr
  have hout := eq_ok_of_toOption hout
  obtain ⟨out', hout', -, -, -, -, hagain, -⟩ := encode_decodePrefix (.of_parse hs) hc hr
  rw [hout] at hout'
  cases hout'
  exact ⟨r, hr, hout, hagain [5]⟩

theorem settled_of_decode (h : c.decode data = .ok r) : c.Settled r := by
  obtain ⟨⟨r', n⟩, hprefix, rfl⟩ := exists_of_map_ok h
  obtain ⟨hroot, hfits, _⟩ := fits_of_decodePrefix hprefix
  exact settled_iff_fits.mpr ⟨hroot, hfits⟩

theorem encode_settled (hl : c.schema.Linked) (h : c.Settled r) :
    ∃ b, c.encode (some r) = .ok b ∧ ∀ t, c.decodePrefix (b ++ t) = .ok (r, b.length) := by
  obtain ⟨hroot, hfits⟩ := settled_iff_fits.mp h
  exact ⟨_, encode_fits (by rw [hroot]) hfits,
    decodePrefix_of_fits hl hroot hfits (Spells.written _)⟩

/-- Loading gives just the consistent records whose conditions have a value. Each of them can be
saved, and whatever follows its bytes, loading them gives the record again and stops after them. -/
theorem settled_iff_decoded {s : Schema} {options : CodecOptions} (hs : s.Accepted)
    (hc : compile (some s) options = .ok c) :
    (∀ r, c.Settled r ↔ ∃ data, c.decode data = .ok r) ∧
    ∀ r, c.Settled r → c.Consistent r ∧ r.equal r = true ∧
      ∃ b, c.encode (some r) = .ok b ∧ ∀ t, c.decodePrefix (b ++ t) = .ok (r, b.length) := by
  have hl := linked_of_compile hs hc
  constructor
  · intro r
    constructor
    · intro h
      obtain ⟨b, _, hb⟩ := encode_settled hl h
      have hdata := hb []
      rw [List.append_nil] at hdata
      exact ⟨b, by rw [decode, hdata]; rfl⟩
    · rintro ⟨data, h⟩
      exact settled_of_decode h
  · intro r h
    exact ⟨h.consistent, r.equal_self, encode_settled hl h⟩

theorem settled_iff_decoded_conditional_list :
    ∃ s c, Schema.parse ("items:\n- id: n\n  type: u8\n- id: p\n  type: u8\n" ++
        "  if: n > 1\n  repeat: Count(n)").toUTF8.toList = .ok s ∧
      compile (some s) .strict = .ok c ∧ ∃ r, c.decode [2, 9, 5, 4] = .ok r ∧ c.Settled r ∧
        c.encode (some r) = .ok [2, 9, 5] ∧ c.decodePrefix [2, 9, 5, 7, 7] = .ok (r, 3) := by
  refine exists_of_parse (fun c => (c.decode [2, 9, 5, 4]).toOption.bind fun r =>
    (c.encode (some r)).toOption) [2, 9, 5] (by decide +kernel) ?_
  intro s c hs hc h
  obtain ⟨r, hr, hout⟩ := Option.bind_eq_some_iff.mp h
  have hr := eq_ok_of_toOption hr
  have hout := eq_ok_of_toOption hout
  obtain ⟨himage, hinverse⟩ := settled_iff_decoded (.of_parse hs) hc
  have hsettled : c.Settled r := (himage r).mpr ⟨_, hr⟩
  obtain ⟨-, -, b, hb, hagain⟩ := hinverse r hsettled
  rw [hout] at hb
  cases hb
  exact ⟨r, hr, hsettled, hout, hagain [7, 7]⟩

theorem consistent_of_absent {cond : Condition} (hfields : c.schema.root.fields = [f])
    (hr : f.repetition = none) (hc : f.condition = some cond)
    (h : cond.expr.evalBool
      ((Frame.start none).before (c.sharesAfter? c.schema.root.name) c.schema.root []).scope ≠
        .ok true) :
    c.Consistent ⟨c.schema.root, [.null]⟩ := by
  have hroot : c.isRoot c.schema.root.name = true := by simp [isRoot]
  refine ⟨rfl, ?_⟩
  simp only [Record.toValue, Throughout, type?_root, hroot, hfields, ThroughoutSlots]
  refine ⟨trivial, ⟨?_, ?_, ?_, ?_⟩, trivial, trivial⟩
  · simp [Value.misfit?, Value.elementMisfit?, hr, hc, Value.isNull]
  · intro cond' hc'
    obtain rfl : cond = cond' := Option.some.inj (hc.symm.trans hc')
    simpa [Field.elements_single hr, Value.isNull] using h
  · simp [hr]
  · simp [Field.elements_single hr, emptyElementLimit]

/-- A value may be absent because its condition has no value: the record is consistent and can be
saved, but what is saved cannot be loaded. -/
theorem consistent_not_loaded :
    ∃ s c, Schema.parse "items:\n- id: b\n  type: u8\n  if: 1 / 0 == 0".toUTF8.toList = .ok s ∧
      compile (some s) .strict = .ok c ∧ ∃ r, c.Consistent r ∧ c.encode (some r) = .ok [] ∧
        ∃ e, c.decodePrefix [] = .error (.error e) ∧ e.kind = .expression := by
  refine exists_of_parse (fun c => c.schema.root.fields.head?.bind fun f =>
    f.condition.bind fun cond => (failure? (c.decodePrefix [])).map fun e =>
      (c.schema.root.fields.length == 1 && f.repetition.isNone, e.kind,
        (c.encode (some ⟨c.schema.root, [.null]⟩)).toOption,
        (cond.expr.evalBool ((Frame.start none).before (c.sharesAfter? c.schema.root.name)
          c.schema.root []).scope).toOption))
    (true, .expression, some [], none) (by decide +kernel) ?_
  intro s c hs hc h
  obtain ⟨f, hf, h⟩ := Option.bind_eq_some_iff.mp h
  obtain ⟨cond, hcond, h⟩ := Option.bind_eq_some_iff.mp h
  obtain ⟨e, he, h⟩ := Option.map_eq_some_iff.mp h
  simp only [Prod.mk.injEq, Bool.and_eq_true, beq_iff_eq, Option.isNone_iff_eq_none] at h
  obtain ⟨⟨hlength, hrepetition⟩, hkind, hout, heval⟩ := h
  obtain ⟨g, hfields⟩ := List.length_eq_one_iff.mp hlength
  obtain rfl : g = f := by simpa [hfields] using hf
  refine ⟨⟨c.schema.root, [.null]⟩, consistent_of_absent hfields hrepetition hcond ?_,
    eq_ok_of_toOption hout, e, eq_error_of_failure? he, hkind⟩
  intro htrue
  rw [htrue] at heval
  cases heval

end Codec

end Savefile
