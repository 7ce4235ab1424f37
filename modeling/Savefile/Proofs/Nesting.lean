import Savefile.Proofs.RoundTrip

/-!
# Nested records on their own

A record inside another is read and written like a record on its own: all it sees of the records
around it are the leading fields of the root, and these are the context that the finished root gives.
-/
namespace Savefile

namespace Codec

mutual

/-- The records in a value that starts at an offset, each with the offset at which it starts. -/
def placed (c : Codec) (f : Field) (o : Nat) : Value → List (Record × Nat)
  | .record t slots => (⟨t, slots⟩, o) :: placedSlots c t.fields o slots
  | .list items => placedItems c f o items
  | _ => []

/-- The records in the elements of a list. -/
def placedItems (c : Codec) (f : Field) (o : Nat) : List Value → List (Record × Nat)
  | [] => []
  | v :: vs => placed c f o v ++ placedItems c f (o + (c.cells f v).length) vs

/-- The records in values, each of its own field. -/
def placedSlots (c : Codec) (fields : List Field) (o : Nat) : List Value → List (Record × Nat)
  | [] => []
  | v :: vs =>
    match fields with
    | [] => []
    | f :: fs => placed c f o v ++ placedSlots c fs (o + (c.cells f v).length) vs

end

/-- The records inside a record, at any depth, each with the offset at which it starts. -/
def nestedRecords (c : Codec) (r : Record) : List (Record × Nat) :=
  c.placedSlots r.type.fields 0 r.slots

/-- A record that fits in the context stands at offset `p` of cells that start at offset `o`. -/
structure StandsAt (c : Codec) (context : Context) (cells : List Cell) (o : Nat) (r : Record)
    (p : Nat) : Prop where
  declared : (c.schema.declared? r.type.name).isSome = true
  fits : c.Throughout c.Fits (some context) r.toValue
  span : ∃ left right, cells = left ++ c.recordCells r ++ right ∧ p = o + left.length

variable {c : Codec} {context : Context} {cells : List Cell} {o p : Nat} {r : Record}

theorem StandsAt.append_right (h : c.StandsAt context cells o r p) (more : List Cell) :
    c.StandsAt context (cells ++ more) o r p := by
  obtain ⟨hdeclared, hfits, left, right, rfl, hp⟩ := h
  exact ⟨hdeclared, hfits, left, right ++ more, by simp, hp⟩

theorem StandsAt.append_left {before : List Cell}
    (h : c.StandsAt context cells (o + before.length) r p) :
    c.StandsAt context (before ++ cells) o r p := by
  obtain ⟨hdeclared, hfits, left, right, rfl, rfl⟩ := h
  refine ⟨hdeclared, hfits, before ++ left, right, by simp, ?_⟩
  rw [List.length_append, Nat.add_assoc]

mutual

theorem standsAt_of_holds (hl : c.schema.Linked) {f : Field} {fr : Frame}
    (hf : f.type.kind.isComposite = true → (c.schema.declared? f.type.name).isSome = true)
    (hcontext : fr.context = some context) :
    ∀ (v : Value) (o : Nat), f.Holds fr.scope v → c.Throughout c.Fits fr.context v →
      (r, p) ∈ c.placed f o v → c.StandsAt context (c.cells f v) o r p
  | .record t slots, o, hv, hthrough, hr => by
    cases hv with
    | record _ hcomposite hname =>
      have hdeclared := hf hcomposite
      rw [← hname] at hdeclared
      rw [hcontext] at hthrough
      rw [placed] at hr
      rcases List.mem_cons.mp hr with heq | hr
      · cases heq
        exact ⟨hdeclared, hthrough, [], [], by simp [recordCells, cells], rfl⟩
      · rw [Throughout] at hthrough
        obtain ⟨ht, hslots⟩ := hthrough
        have hroot := isRoot_eq_false hl hdeclared
        rw [hroot] at hslots
        rw [cells]
        exact standsAt_of_slots hl hroot (declared_of_type? hl ht) slots t.fields [] _ o
          (fun f hf => hf) rfl hslots hr
  | .null, _, _, _, hr => by simp [placed] at hr
  | .scalar _, _, _, _, hr => by simp [placed] at hr
  | .list _, _, hv, _, _ => by cases hv
  | .foreign _ _, _, hv, _, _ => by cases hv
termination_by v => (sizeOf v, 0)

theorem standsAt_of_items (hl : c.schema.Linked) {f : Field} {fr : Frame}
    (hf : f.type.kind.isComposite = true → (c.schema.declared? f.type.name).isSome = true)
    (hcontext : fr.context = some context) :
    ∀ (vs : List Value) (o : Nat), (∀ v ∈ vs, f.Holds fr.scope v) →
      c.ThroughoutItems c.Fits fr.context vs → (r, p) ∈ c.placedItems f o vs →
      c.StandsAt context (c.itemCells f vs) o r p
  | [], _, _, _, hr => by simp [placedItems] at hr
  | v :: vs, o, hvs, hthrough, hr => by
    rw [ThroughoutItems] at hthrough
    rw [placedItems] at hr
    rw [itemCells]
    rcases List.mem_append.mp hr with hr | hr
    · exact (standsAt_of_holds hl hf hcontext v o (hvs v (List.mem_cons_self ..)) hthrough.1
        hr).append_right _
    · exact (standsAt_of_items hl hf hcontext vs _ (fun w hw => hvs w (List.mem_cons_of_mem _ hw))
        hthrough.2 hr).append_left
termination_by vs => (sizeOf vs, 0)

theorem standsAt_of_slots (hl : c.schema.Linked) {t : RecordType} (ht : c.isRoot t.name = false)
    (hdeclared : ∀ f ∈ t.fields, f.type.kind.isComposite = true →
      (c.schema.declared? f.type.name).isSome = true) :
    ∀ (vs : List Value) (fields : List Field) (before : List Value) (fr : Frame) (o : Nat),
      (∀ f ∈ fields, f ∈ t.fields) → fr.context = some context →
      c.ThroughoutSlots c.Fits t fields before fr vs → (r, p) ∈ c.placedSlots fields o vs →
      c.StandsAt context (c.slotCells fields vs) o r p
  | [], _, _, _, _, _, _, _, hr => by simp [placedSlots] at hr
  | v :: vs, fields, before, fr, o, hmem, hcontext, hvs, hr => by
    cases fields with
    | nil => simp [placedSlots] at hr
    | cons f fs =>
      -- The frame does not change: only the root shares its fields.
      have hframe : fr.before (c.sharesAfter? t.name) t before = fr := by
        simp [Frame.before, sharesAfter?, ht]
      simp only [ThroughoutSlots, hframe] at hvs
      obtain ⟨hfits, hthrough, hrest⟩ := hvs
      simp only [placedSlots] at hr
      simp only [slotCells]
      have hf := hdeclared f (hmem f (List.mem_cons_self ..))
      rcases List.mem_append.mp hr with hr | hr
      · exact (standsAt_of_fits hl hf hcontext v o hfits hthrough hr).append_right _
      · exact (standsAt_of_slots hl ht hdeclared vs fs _ (fr.bind f.id v) _
          (fun g hg => hmem g (List.mem_cons_of_mem _ hg)) hcontext hrest hr).append_left
termination_by vs => (sizeOf vs, 0)

theorem standsAt_of_fits (hl : c.schema.Linked) {f : Field} {fr : Frame}
    (hf : f.type.kind.isComposite = true → (c.schema.declared? f.type.name).isSome = true)
    (hcontext : fr.context = some context) (v : Value) (o : Nat) (hv : c.Fits f fr v)
    (hthrough : c.Throughout c.Fits fr.context v) (hr : (r, p) ∈ c.placed f o v) :
    c.StandsAt context (c.cells f v) o r p := by
  cases hv with
  | single _ hholds => exact standsAt_of_holds hl hf hcontext v o hholds hthrough hr
  | @list _ items _ _ hholds _ =>
    rw [Throughout] at hthrough
    rw [placed] at hr
    rw [cells]
    exact standsAt_of_items hl hf hcontext items o hholds hthrough hr
termination_by (sizeOf v, 1)

end

theorem composite_of_placed_holds {f : Field} {scope : Scope} {v : Value} {o : Nat}
    (hv : f.Holds scope v) (hr : (r, p) ∈ c.placed f o v) : f.type.kind.isComposite = true := by
  cases hv with
  | absent | scalar => simp [placed] at hr
  | record _ hcomposite _ => exact hcomposite

theorem composite_of_placed_items {f : Field} {scope : Scope} {vs : List Value} {o : Nat}
    (hvs : ∀ v ∈ vs, f.Holds scope v) (hr : (r, p) ∈ c.placedItems f o vs) :
    f.type.kind.isComposite = true := by
  induction vs generalizing o with
  | nil => simp [placedItems] at hr
  | cons v vs ih =>
    rw [placedItems] at hr
    rcases List.mem_append.mp hr with hr | hr
    · exact composite_of_placed_holds (hvs v (List.mem_cons_self ..)) hr
    · exact ih (fun w hw => hvs w (List.mem_cons_of_mem _ hw)) hr

/-- Records stand in composite fields only. -/
theorem composite_of_placed {f : Field} {fr : Frame} {v : Value} {o : Nat} (hv : c.Fits f fr v)
    (hr : (r, p) ∈ c.placed f o v) : f.type.kind.isComposite = true := by
  cases hv with
  | single _ hholds => exact composite_of_placed_holds hholds hr
  | list _ _ hholds _ =>
    rw [placed] at hr
    exact composite_of_placed_items hholds hr

/-- The fields of the context are not composite. -/
theorem not_composite_of_lt_boundary {t : RecordType} {f : Field} {earlier later : List Field}
    (hfields : t.fields = earlier ++ f :: later) (h : earlier.length < t.contextBoundary) :
    f.type.kind.isComposite = false := by
  have hget := (List.takeWhile_prefix (l := t.fields) Field.isContextual).getElem h
  have hcontextual : Field.isContextual f = true := by
    have hall := List.all_eq_true.mp List.all_takeWhile _ (List.getElem_mem h)
    rw [hget] at hall
    simpa [hfields] using hall
  simp only [Field.isContextual, Bool.and_eq_true, Bool.not_eq_true'] at hcontextual
  exact hcontextual.2

/-- From the boundary on, the root's frame has the context of its leading fields. -/
theorem context_before_of_le {own : RecordType} {slots before vs : List Value} {fr : Frame}
    (hslots : slots = before.reverse ++ vs)
    (hcontext : c.contextBoundary < before.length →
      fr.context = some (.ofSlots own slots c.contextBoundary))
    (hle : c.contextBoundary ≤ before.length) :
    (fr.before (c.sharesAfter? c.schema.root.name) own before).context =
      some (.ofSlots own slots c.contextBoundary) := by
  have hroot : c.isRoot c.schema.root.name = true := by simp [isRoot]
  rcases Nat.eq_or_lt_of_le hle with heq | hlt
  · have hlength : before.length = before.reverse.length := List.length_reverse.symm
    have htake : slots.take before.length = before.reverse := by
      rw [hslots, hlength, List.take_left]
    simp [Frame.before, sharesAfter?, hroot, heq, Frame.share, Context.ofSlots, htake]
  · have hne : c.contextBoundary ≠ before.length := Nat.ne_of_lt hlt
    simp [Frame.before, sharesAfter?, hroot, hne, hcontext hlt]

/-- The records inside the root stand in the context of its leading fields. The frame has no context
up to the boundary; from there on it has this one. -/
theorem standsAt_of_rootSlots (hl : c.schema.Linked) {slots : List Value} {vs before : List Value}
    {fields earlier : List Field} {fr : Frame} {o : Nat}
    (hfields : c.schema.root.fields = earlier ++ fields) (hearlier : earlier.length = before.length)
    (hslots : slots = before.reverse ++ vs)
    (hcontext : c.contextBoundary < before.length →
      fr.context = some (.ofSlots c.schema.root slots c.contextBoundary))
    (hvs : c.ThroughoutSlots c.Fits c.schema.root fields before fr vs)
    (hr : (r, p) ∈ c.placedSlots fields o vs) :
    c.StandsAt (.ofSlots c.schema.root slots c.contextBoundary) (c.slotCells fields vs) o r p := by
  induction vs generalizing fields earlier before fr o with
  | nil => simp [placedSlots] at hr
  | cons v vs ih =>
    cases fields with
    | nil => simp [placedSlots] at hr
    | cons f fs =>
      have hframe := context_before_of_le hslots hcontext
      simp only [ThroughoutSlots] at hvs
      obtain ⟨hfits, hthrough, hrest⟩ := hvs
      simp only [placedSlots] at hr
      simp only [slotCells]
      rcases List.mem_append.mp hr with hr | hr
      · have hcomposite := composite_of_placed hfits hr
        have hle : c.contextBoundary ≤ before.length := by
          rcases Nat.lt_or_ge before.length c.contextBoundary with hlt | hle
          · have hnot := not_composite_of_lt_boundary hfields (hearlier ▸ hlt)
            rw [hcomposite] at hnot
            cases hnot
          · exact hle
        have hf := declared_of_type? hl c.type?_root f (by rw [hfields]; simp)
        exact (standsAt_of_fits hl hf (hframe hle) v o hfits hthrough hr).append_right _
      · have hfields' : c.schema.root.fields = (earlier ++ [f]) ++ fs := by simp [hfields]
        have hearlier' : (earlier ++ [f]).length = (v :: before).length := by simp [hearlier]
        have hslots' : slots = (v :: before).reverse ++ vs := by simp [hslots]
        refine (ih hfields' hearlier' hslots' ?_ hrest hr).append_left
        intro hlt
        exact hframe (Nat.le_of_lt_succ hlt)

variable {data b : List UInt8} {root : Record} {n : Nat}

theorem standsAt_of_nestedRecords (hl : c.schema.Linked) (hroot : root.type = c.schema.root)
    (hfits : c.Throughout c.Fits none root.toValue) (hr : (r, o) ∈ c.nestedRecords root) :
    c.StandsAt (.ofSlots root.type root.slots c.contextBoundary) (c.recordCells root) 0 r o := by
  rw [Record.toValue, Throughout] at hfits
  have hslots := hfits.2
  rw [nestedRecords] at hr
  rw [recordCells]
  rw [hroot] at hslots hr ⊢
  exact standsAt_of_rootSlots hl (List.nil_append _).symm rfl rfl (by simp) hslots hr

theorem contextOf_fits (hroot : root.type = c.schema.root)
    (hfits : c.Throughout c.Fits none root.toValue) :
    c.contextOf (some root) = .ok (.ofSlots root.type root.slots c.contextBoundary) := by
  rw [Record.toValue, Throughout] at hfits
  have hlength := hfits.2.length_eq
  have hboundary : c.contextBoundary ≤ root.type.fields.length := by
    rw [hroot]
    exact (List.takeWhile_prefix _).length_le
  have hname : c.isRoot root.type.name = true := by simp [isRoot, hroot]
  have hnot : ¬root.slots.length < c.contextBoundary := by omega
  simp [contextOf, hname, hnot]

/-- A record that fits in a context is read on its own from bytes that spell it. -/
theorem decodeType_of_fits (hl : c.schema.Linked)
    (hfits : c.Throughout c.Fits (some context) r.toValue) (hspells : Spells (c.recordCells r) b)
    {s : Source} {t : List UInt8} (hs : s.rest = b ++ t) (hseek : s.seekable = true) :
    ∃ s', c.decodeType r.type.name (some context) s = .done r s' ∧ s.Past s' b := by
  obtain ⟨s', hs', hpast⟩ := decodeRecord_complete c (sizeOf r.toValue) r (some context) s b t
    (Nat.le_refl _) hfits hspells hs hseek
  exact ⟨_, decodeType_of_done hl hs', hpast.note _⟩

/-- Two records of one type that fit in a context and are spelled by the same bytes are the same. -/
theorem eq_of_spells {r' : Record} (hname : r'.type.name = r.type.name)
    (hfits : c.Throughout c.Fits (some context) r.toValue)
    (hfits' : c.Throughout c.Fits (some context) r'.toValue)
    {t t' b' : List UInt8} (hspells : Spells (c.recordCells r) b)
    (hspells' : Spells (c.recordCells r') b') (hb : b ++ t = b' ++ t') : r' = r := by
  obtain ⟨s, hs, -⟩ := decodeRecord_complete c (sizeOf r.toValue + sizeOf r'.toValue) r
    (some context) (.ofBytes (b ++ t)) b t (Nat.le_add_right _ _) hfits hspells rfl rfl
  obtain ⟨s', hs', -⟩ := decodeRecord_complete c (sizeOf r.toValue + sizeOf r'.toValue) r'
    (some context) (.ofBytes (b ++ t)) b' t' (Nat.le_add_left _ _) hfits' hspells' hb rfl
  rw [hname, hs] at hs'
  cases hs'
  rfl

/-- Where a record stands, the bytes of the root spell it. -/
theorem StandsAt.spells (h : c.StandsAt context (c.recordCells root) 0 r o) (hn : n ≤ data.length)
    (hspells : Spells (c.recordCells root) (data.take n)) :
    ∃ b t, data.drop o = b ++ t ∧ b.length = c.recordWidth r ∧ Spells (c.recordCells r) b ∧
      o + c.recordWidth r ≤ n := by
  obtain ⟨-, -, left, right, hcells, ho⟩ := h
  rw [hcells] at hspells
  obtain ⟨b₁, b₃, hdata, hspells, -⟩ := hspells.split
  obtain ⟨b₁, b, rfl, hleft, hspells⟩ := hspells.split
  have hoffset : o = b₁.length := by
    rw [hleft.length_eq, ho, Nat.zero_add]
  have hlength : n = b₁.length + b.length + b₃.length := by
    rw [← List.length_append, ← List.length_append, ← hdata, List.length_take]
    omega
  refine ⟨b, b₃ ++ data.drop n, ?_, hspells.length_eq, hspells, ?_⟩
  · rw [hoffset]
    conv_lhs => rw [← List.take_append_drop n data, hdata]
    simp
  · rw [hoffset, recordWidth, ← hspells.length_eq]
    omega

theorem StandsAt.written (h : c.StandsAt context (c.recordCells root) 0 r o) :
    (((c.recordCells root).map Cell.byte).drop o).take (c.recordWidth r) =
      (c.recordCells r).map Cell.byte := by
  obtain ⟨-, -, left, right, hcells, ho⟩ := h
  have hoffset : o = (left.map Cell.byte).length := by
    rw [List.length_map, ho, Nat.zero_add]
  have hwidth : c.recordWidth r = ((c.recordCells r).map Cell.byte).length := by
    rw [List.length_map, recordWidth]
  rw [hcells, List.map_append, List.map_append, List.append_assoc, hoffset, List.drop_left, hwidth,
    List.take_left]

/-- A record inside another is read and written like a record on its own, in the context of the
root: from its offset on, reading gives it and stops after its width, and what is written is the part
of the root's bytes from there. Nothing but its type, its bytes and the context have an influence on
it. -/
theorem nested_alone {s : Schema} {options : CodecOptions} (hs : s.Accepted)
    (hc : compile (some s) options = .ok c) (h : c.decodePrefix data = .ok (root, n))
    (hr : (r, o) ∈ c.nestedRecords root) :
    ∃ context out, c.contextOf (some root) = .ok context ∧ c.encode (some root) = .ok out ∧
      c.schema.declared? r.type.name = some r.type ∧ o + c.recordWidth r ≤ n ∧
      (∃ s', c.decodeType r.type.name (some context) ⟨data.drop o, o, true, []⟩ = .done r s' ∧
        s'.rest = data.drop (o + c.recordWidth r) ∧ s'.offset = o + c.recordWidth r) ∧
      r.equal r = true ∧
      (∃ w, c.encodeType .memory r.type.name (some context) (some r) = .done () w ∧
        w.bytes = (out.drop o).take (c.recordWidth r)) ∧
      ∀ data' root' n' r' o', c.decodePrefix data' = .ok (root', n') →
        (r', o') ∈ c.nestedRecords root' → r'.type.name = r.type.name →
        c.contextOf (some root') = .ok context →
        (data'.drop o').take (c.recordWidth r) = (data.drop o).take (c.recordWidth r) →
        r' = r := by
  have hl := linked_of_compile hs hc
  obtain ⟨hroot, hfits, hn, hspells⟩ := fits_of_decodePrefix h
  have hstands := standsAt_of_nestedRecords hl hroot hfits hr
  obtain ⟨b, t, hdata, hwidth, hb, hend⟩ := hstands.spells hn hspells
  refine ⟨_, _, contextOf_fits hroot hfits, encode_fits (by rw [hroot]) hfits, ?_, hend, ?_,
    r.equal_self, ?_, ?_⟩
  · have htype := hstands.fits
    rw [Record.toValue, Throughout, type?_declared hl hstands.declared] at htype
    exact htype.1
  · obtain ⟨s', hs', hpast⟩ :=
      decodeType_of_fits (s := ⟨data.drop o, o, true, []⟩) hl hstands.fits hb hdata rfl
    refine ⟨s', hs', ?_, ?_⟩
    · rw [hpast.rest_eq hdata, ← List.drop_drop, hdata, ← hwidth, List.drop_left]
    · rw [hpast.offset, hwidth]
  · obtain ⟨w, hw, hbytes⟩ := encodeType_fits hstands.fits
    exact ⟨w, hw, by rw [hbytes, hstands.written]⟩
  · intro data' root' n' r' o' h' hr' hname hcontext' hsame
    obtain ⟨hroot', hfits', hn', hspells'⟩ := fits_of_decodePrefix h'
    have hstands' := standsAt_of_nestedRecords hl hroot' hfits' hr'
    rw [contextOf_fits hroot' hfits'] at hcontext'
    rw [Except.ok.inj hcontext'] at hstands'
    obtain ⟨b', t', hdata', -, hb', -⟩ := hstands'.spells hn' hspells'
    have htake : (data.drop o).take (c.recordWidth r) = b := by
      rw [hdata, ← hwidth, List.take_left]
    have hsplit := List.take_append_drop (c.recordWidth r) (data'.drop o')
    rw [hsame, htake, hdata'] at hsplit
    exact eq_of_spells hname hstands.fits hstands'.fits hb hb' hsplit

theorem nested_alone_list_element :
    ∃ s c, Schema.parse ("types:\n  P:\n  - id: x\n    type: u8\n    if: _root.n > 1\n" ++
        "items:\n- id: n\n  type: u8\n- id: p\n  type: P\n  repeat: Count(n)").toUTF8.toList =
          .ok s ∧
      compile (some s) .strict = .ok c ∧ ∃ root r, c.decodePrefix [2, 9, 5, 4] = .ok (root, 3) ∧
        (r, 2) ∈ c.nestedRecords root ∧ ∃ context, c.contextOf (some root) = .ok context ∧
        (∃ s', c.decodeType "P" (some context) ⟨[5, 4], 2, true, []⟩ = .done r s' ∧ s'.rest = [4]) ∧
        ∃ w, c.encodeType .memory "P" (some context) (some r) = .done () w ∧ w.bytes = [5] := by
  refine exists_of_parse (fun c => (c.decodePrefix [2, 9, 5, 4]).toOption.bind fun rn =>
    (c.nestedRecords rn.1)[1]?.bind fun ro => (c.encode (some rn.1)).toOption.map fun out =>
      (rn.2, ro.2, ro.1.type.name, c.recordWidth ro.1, out))
    (3, 2, "P", 1, [2, 9, 5]) (by decide +kernel) ?_
  intro s c hs hc h
  obtain ⟨⟨root, n⟩, hroot, h⟩ := Option.bind_eq_some_iff.mp h
  obtain ⟨⟨r, o⟩, hr, h⟩ := Option.bind_eq_some_iff.mp h
  obtain ⟨out, hout, h⟩ := Option.map_eq_some_iff.mp h
  simp only [Prod.mk.injEq] at h
  obtain ⟨rfl, rfl, hname, hwidth, rfl⟩ := h
  have hroot := eq_ok_of_toOption hroot
  have hr := List.mem_of_getElem? hr
  have hout := eq_ok_of_toOption hout
  obtain ⟨context, out', hcontext, hout', -, -, ⟨s', hs', hrest, -⟩, -, ⟨w, hw, hbytes⟩, -⟩ :=
    nested_alone (.of_parse hs) hc hroot hr
  rw [hout] at hout'
  cases hout'
  rw [hname] at hs' hw
  rw [hwidth] at hrest hbytes
  exact ⟨root, r, hroot, hr, context, hcontext, ⟨s', hs', hrest⟩, w, hw, hbytes⟩

end Codec

end Savefile
