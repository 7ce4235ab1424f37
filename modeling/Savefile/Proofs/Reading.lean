import Savefile.Proofs.Consistency
import Savefile.Proofs.Locality

/-!
# What readers read

Readers read what fits, from the bytes that spell it: a record that comes out fits throughout and
its cells are spelled by the bytes the reader moved past, and conversely from bytes that spell a
record that fits throughout the reader reads this record and moves past just these bytes.
-/
namespace Savefile

namespace Source

variable {s s' : Source} {b t : List UInt8}

theorem Past.rest_eq (h : s.Past s' b) (hs : s.rest = b ++ t) : s'.rest = t :=
  List.append_cancel_left (h.rest.symm.trans hs)

theorem Past.position_eq_iff (h : s.Past s' b) (hs : s.seekable = true) :
    s'.position = s.position ↔ b = [] := by
  rw [h.position hs, Source.position, if_pos hs, ← List.length_eq_zero_iff]
  omega

theorem Past.ne_nil_of_position (h : s.Past s' b) (hp : s'.position ≠ s.position) : b ≠ [] := by
  rintro rfl
  apply hp
  rw [Source.position, Source.position, h.seekable, h.offset]
  rfl

end Source

namespace Codec

open Reader

variable {c : Codec} {nested : NestedDecoder} {f : Field} {fr : Frame}

theorem readElement_present (h : f.Present fr.scope) :
    c.readElement nested f fr = c.readBase nested f.type fr.context := by
  unfold readElement
  cases hc : f.condition with
  | none => rfl
  | some cond =>
    funext s
    simp only [h cond hc]

theorem readElement_absent {cond : Condition} (hc : f.condition = some cond)
    (h : cond.expr.evalBool fr.scope = .ok false) :
    c.readElement nested f fr = c.skipAbsent f.type cond.advance := by
  funext s
  simp only [readElement, hc, h]

theorem skipAbsent_eq {cond : Condition} (hc : f.condition = some cond) :
    c.skipAbsent f.type cond.advance = taking (c.roomOf f) fun _ => .null := by
  cases ha : cond.advance with
  | true =>
    have hr : c.roomOf f = c.keptWidth f.type := by simp [roomOf, hc, ha]
    rw [skipAbsent_true, hr]
  | false =>
    have hr : c.roomOf f = 0 := by simp [roomOf, hc, ha]
    funext s
    rw [hr, taking, Source.take_of_le (Nat.zero_le _)]
    rfl

/-- What comes out of the reader of nested records fits and is spelled by what it read. -/
def NestedSound (c : Codec) (nested : NestedDecoder) : Prop :=
  ∀ name context s r s', nested name context s = .done r s' →
    r.type.name = name ∧ c.Throughout c.Fits context r.toValue ∧
      ∃ b, s.Past s' b ∧ Spells (c.recordCells r) b

theorem readBase_sound (hn : c.NestedSound nested) (hf : f.Present fr.scope) {s s' : Source}
    {v : Value} (h : c.readBase nested f.type fr.context s = .done v s') :
    f.Holds fr.scope v ∧ c.Throughout c.Fits fr.context v ∧
      ∃ b, s.Past s' b ∧ Spells (c.cells f v) b := by
  unfold readBase at h
  split at h
  · rename_i hc
    cases hr : nested f.type.name fr.context s with
    | failed e s₁ => simp [hr, Pass.map] at h
    | done r s₁ =>
      simp only [hr, Pass.map, Pass.done.injEq] at h
      obtain ⟨rfl, rfl⟩ := h
      obtain ⟨hname, hfits, hb⟩ := hn _ _ _ _ _ hr
      exact ⟨.record hf hc hname, hfits, hb⟩
  · cases hk : f.type.kind with
    | composite => simp [hk, TypeKind.isComposite] at *
    | unassigned code =>
      rw [hk] at h
      cases h
    | primitive p =>
      rw [hk, readScalar_primitive] at h
      obtain ⟨b, hlen, rfl, hb⟩ := taking_done h
      refine ⟨.scalar hf ?_, ?_, b, hb, ?_⟩
      · rw [hk, Scalar.kind_decode]
      · simp [Throughout]
      · rw [cells, Scalar.spells_cells_iff, Scalar.kind_decode]
        exact ⟨hlen, rfl⟩

theorem readElement_sound (hn : c.NestedSound nested) {s s' : Source} {v : Value}
    (h : c.readElement nested f fr s = .done v s') :
    f.Holds fr.scope v ∧ c.Throughout c.Fits fr.context v ∧
      ∃ b, s.Past s' b ∧ Spells (c.cells f v) b := by
  cases hc : f.condition with
  | none =>
    have hf : f.Present fr.scope := by
      intro cond hcond
      rw [hc] at hcond
      cases hcond
    rw [readElement_present hf] at h
    exact readBase_sound hn hf h
  | some cond =>
    cases he : cond.expr.evalBool fr.scope with
    | error e =>
      simp only [readElement, hc, he] at h
      cases h
    | ok b =>
      cases b with
      | true =>
        have hf : f.Present fr.scope := by
          intro cond' hcond
          rw [hc] at hcond
          cases hcond
          exact he
        rw [readElement_present hf] at h
        exact readBase_sound hn hf h
      | false =>
        rw [readElement_absent hc he, skipAbsent_eq hc] at h
        obtain ⟨b, hlen, rfl, hb⟩ := taking_done h
        refine ⟨.absent hc he, ?_, b, hb, ?_⟩
        · simp [Throughout]
        · rw [cells]
          exact .room hlen

/-- The reader of a list reads its elements one by one; none of a long list is empty. -/
theorem readElements_sound {read : Reader Value} {A : Value → Prop}
    (hread : ∀ s v s', read s = .done v s' → A v ∧ ∃ b, s.Past s' b ∧ Spells (c.cells f v) b)
    {r : Repetition} {count left : Nat} {items all : List Value} {s s' : Source}
    (h : readElements read r count left items s = .done all s') :
    ∃ vs b, all = items.reverse ++ vs ∧ vs.length = left ∧ (∀ v ∈ vs, A v) ∧
      (emptyElementLimit < count → ∀ v ∈ vs, c.cells f v ≠ []) ∧
      s.Past s' b ∧ Spells (c.itemCells f vs) b := by
  induction left generalizing items s with
  | zero =>
    cases h
    exact ⟨[], [], by simp, rfl, by simp, by simp, .refl _, .nil⟩
  | succ left ih =>
    unfold readElements at h
    cases hv : read s with
    | failed e s₁ => simp [hv] at h
    | done v s₁ =>
      simp only [hv] at h
      split at h
      · cases h
      · rename_i hguard
        obtain ⟨hA, b, hb, hspells⟩ := hread s v s₁ hv
        obtain ⟨vs, b', rfl, hlen, hAs, hne, hb', hspells'⟩ := ih h
        refine ⟨v :: vs, b ++ b', by simp, by simp [hlen], ?_, ?_, hb.trans hb', hspells.append hspells'⟩
        · simpa using ⟨hA, hAs⟩
        · intro hlong
          have hnev : c.cells f v ≠ [] := by
            have hpos := hb.ne_nil_of_position fun hp => hguard ⟨hlong, hp⟩
            intro hnil
            rw [hnil, Spells.nil_iff] at hspells
            exact hpos hspells
          simpa using ⟨hnev, hne hlong⟩

theorem readField_sound (hn : c.NestedSound nested) {s s' : Source} {v : Value}
    (h : c.readField nested f fr s = .done v s') :
    c.Fits f fr v ∧ c.Throughout c.Fits fr.context v ∧
      ∃ b, s.Past s' b ∧ Spells (c.cells f v) b := by
  cases hr : f.repetition with
  | none =>
    simp only [readField, hr] at h
    obtain ⟨hv, hrest⟩ := readElement_sound hn h
    exact ⟨.single hr hv, hrest⟩
  | some r =>
    cases hcount : r.expr.evalCount fr.scope with
    | error e =>
      simp only [readField, hr, hcount] at h
      cases h
    | ok count =>
      simp only [readField, hr, hcount] at h
      cases hi : readElements (c.readElement nested f fr) r count count [] s with
      | failed e s₁ => simp [hi, Pass.map] at h
      | done items s₁ =>
        simp only [hi, Pass.map, Pass.done.injEq] at h
        obtain ⟨rfl, rfl⟩ := h
        have hread : ∀ s v s', c.readElement nested f fr s = .done v s' →
            (f.Holds fr.scope v ∧ c.Throughout c.Fits fr.context v) ∧
              ∃ b, s.Past s' b ∧ Spells (c.cells f v) b := by
          intro s v s' hv
          obtain ⟨h₁, h₂, h₃⟩ := readElement_sound hn hv
          exact ⟨⟨h₁, h₂⟩, h₃⟩
        obtain ⟨vs, b, rfl, hlen, hall, hne, hb, hspells⟩ := readElements_sound hread hi
        refine ⟨.list hr (hlen ▸ hcount) (fun v hv => (hall v hv).1) (hlen ▸ hne), ?_, b, hb, ?_⟩
        · rw [Throughout, throughoutItems_iff]
          exact fun v hv => (hall v hv).2
        · rw [cells]
          exact hspells

theorem readFields_sound (hn : c.NestedSound nested) {t : RecordType} {fields : List Field}
    {slots all : List Value} {fr : Frame} {s s' : Source}
    (h : c.readFields nested t fields slots fr s = .done all s') :
    ∃ vs b, all = slots.reverse ++ vs ∧ c.ThroughoutSlots c.Fits t fields slots fr vs ∧
      s.Past s' b ∧ Spells (c.slotCells fields vs) b := by
  induction fields generalizing slots fr s with
  | nil =>
    cases h
    refine ⟨[], [], by simp, ?_, .refl _, .nil⟩
    rw [ThroughoutSlots]
  | cons f fs ih =>
    unfold readFields at h
    dsimp only at h
    cases hv : c.readField nested f (fr.before (c.sharesAfter? t.name) t slots) s with
    | failed e s₁ => simp [hv] at h
    | done v s₁ =>
      simp only [hv] at h
      obtain ⟨hfits, hthrough, b, hb, hspells⟩ := readField_sound hn hv
      obtain ⟨vs, b', rfl, hvs, hb', hspells'⟩ := ih h
      refine ⟨v :: vs, b ++ b', by simp, ?_, (hb.note _).trans hb', hspells.append hspells'⟩
      simp only [ThroughoutSlots]
      exact ⟨hfits, hthrough, hvs⟩

/-- A record that is read fits throughout, and is spelled by what was read. -/
theorem decodeRecord_sound (c : Codec) (depth : Nat) : c.NestedSound (c.decodeRecord depth) := by
  induction depth with
  | zero =>
    intro name context s r s' h
    cases h
  | succ depth ih =>
    intro name context s r s' h
    cases ht : c.type? name with
    | none =>
      simp only [decodeRecord, ht] at h
      cases h
    | some t =>
      simp only [decodeRecord, ht] at h
      have hname := type?_name ht
      cases hf : c.readFields (c.decodeRecord depth) t t.fields []
          (.start (if c.isRoot name then none else context)) s with
      | failed e s₁ => simp [hf, Pass.map] at h
      | done all s₁ =>
        simp only [hf, Pass.map, Pass.done.injEq] at h
        obtain ⟨rfl, rfl⟩ := h
        obtain ⟨vs, b, rfl, hvs, hb, hspells⟩ := readFields_sound ih hf
        refine ⟨hname, ?_, b, hb, ?_⟩
        · simp only [Record.toValue, Throughout, hname]
          exact ⟨ht, hvs⟩
        · exact hspells

/-- The reader of nested records reads every record that fits and is no larger than `size`, from any
bytes that spell it. -/
def NestedComplete (c : Codec) (nested : NestedDecoder) (size : Nat) : Prop :=
  ∀ (r : Record) (context : Option Context) (s : Source) (b t : List UInt8),
    sizeOf r.toValue ≤ size → c.Throughout c.Fits context r.toValue →
    Spells (c.recordCells r) b → s.rest = b ++ t → s.seekable = true →
    ∃ s', nested r.type.name context s = .done r s' ∧ s.Past s' b

variable {size : Nat} {b t : List UInt8} {s : Source}

theorem readElement_complete (hn : c.NestedComplete nested size) {v : Value}
    (hv : f.Holds fr.scope v) (hthrough : c.Throughout c.Fits fr.context v) (hsize : sizeOf v ≤ size)
    (hspells : Spells (c.cells f v) b) (hs : s.rest = b ++ t) (hseek : s.seekable = true) :
    ∃ s', c.readElement nested f fr s = .done v s' ∧ s.Past s' b := by
  cases hv with
  | absent hc he =>
    rw [cells] at hspells
    have hlen : b.length = c.roomOf f := by simpa using hspells.length_eq
    rw [readElement_absent hc he, skipAbsent_eq hc, ← hlen]
    exact taking_append _ hs
  | @scalar x hp hk =>
    rw [cells, Scalar.spells_cells_iff] at hspells
    obtain ⟨s', hs', hb⟩ :=
      taking_append (fun bytes => Value.scalar (.decode c.schema.order x.kind bytes)) hs
    refine ⟨s', ?_, hb⟩
    have hbase : c.readBase nested f.type fr.context s = c.readScalar f.type.kind s := by
      simp [readBase, hk, TypeKind.isComposite]
    rw [readElement_present hp, hbase, hk, readScalar_primitive, ← hspells.1, hs', hspells.2]
  | @record u slots hp hc hname =>
    rw [cells] at hspells
    obtain ⟨s', hs', hb⟩ := hn ⟨u, slots⟩ fr.context s b t hsize hthrough hspells hs hseek
    refine ⟨s', ?_, hb⟩
    rw [readElement_present hp, readBase, if_pos hc, ← hname, hs']
    rfl

theorem readElements_complete {read : Reader Value} {r : Repetition} {count : Nat}
    {vs : List Value}
    (hread : ∀ v ∈ vs, ∀ (s : Source) (b t : List UInt8), Spells (c.cells f v) b →
      s.rest = b ++ t → s.seekable = true → ∃ s', read s = .done v s' ∧ s.Past s' b)
    (hne : emptyElementLimit < count → ∀ v ∈ vs, c.cells f v ≠ []) (items : List Value)
    (hspells : Spells (c.itemCells f vs) b) (hs : s.rest = b ++ t) (hseek : s.seekable = true) :
    ∃ s', readElements read r count vs.length items s = .done (items.reverse ++ vs) s' ∧
      s.Past s' b := by
  induction vs generalizing items s b with
  | nil =>
    rw [itemCells, Spells.nil_iff] at hspells
    subst hspells
    exact ⟨s, by simp [readElements], .refl s⟩
  | cons v vs ih =>
    rw [itemCells] at hspells
    obtain ⟨b₁, b₂, rfl, hspells₁, hspells₂⟩ := hspells.split
    rw [List.append_assoc] at hs
    obtain ⟨s₁, hs₁, hb₁⟩ := hread v (List.mem_cons_self ..) s b₁ _ hspells₁ hs hseek
    have hguard : ¬(emptyElementLimit < count ∧ s₁.position = s.position) := by
      rintro ⟨hlong, hpos⟩
      rw [hb₁.position_eq_iff hseek] at hpos
      subst hpos
      have hnil : c.cells f v = [] := List.eq_nil_of_length_eq_zero hspells₁.length_eq.symm
      exact hne hlong v (List.mem_cons_self ..) hnil
    obtain ⟨s₂, hs₂, hb₂⟩ := ih (fun w hw => hread w (List.mem_cons_of_mem _ hw))
      (fun hlong w hw => hne hlong w (List.mem_cons_of_mem _ hw)) (v :: items) hspells₂
      (hb₁.rest_eq hs) (hb₁.seekable.trans hseek)
    refine ⟨s₂, ?_, hb₁.trans hb₂⟩
    simp only [List.length_cons, readElements, hs₁, if_neg hguard, hs₂]
    simp

theorem readField_complete (hn : c.NestedComplete nested size) {v : Value} (hv : c.Fits f fr v)
    (hthrough : c.Throughout c.Fits fr.context v) (hsize : sizeOf v ≤ size)
    (hspells : Spells (c.cells f v) b) (hs : s.rest = b ++ t) (hseek : s.seekable = true) :
    ∃ s', c.readField nested f fr s = .done v s' ∧ s.Past s' b := by
  cases hv with
  | single hr hholds =>
    simp only [readField, hr]
    exact readElement_complete hn hholds hthrough hsize hspells hs hseek
  | @list r items hr hcount hholds hne =>
    rw [cells] at hspells
    rw [Throughout, throughoutItems_iff] at hthrough
    have hread : ∀ v ∈ items, ∀ (s : Source) (b t : List UInt8), Spells (c.cells f v) b →
        s.rest = b ++ t → s.seekable = true →
        ∃ s', c.readElement nested f fr s = .done v s' ∧ s.Past s' b := by
      intro v hv s b t hspells hs hseek
      have hlt : sizeOf v < sizeOf items := List.sizeOf_lt_of_mem hv
      rw [Value.list.sizeOf_spec] at hsize
      exact readElement_complete hn (hholds v hv) (hthrough v hv) (by omega) hspells hs hseek
    obtain ⟨s', hs', hb⟩ := readElements_complete (r := r) hread hne [] hspells hs hseek
    refine ⟨s', ?_, hb⟩
    simp only [readField, hr, hcount, hs']
    rfl

theorem readFields_complete (hn : c.NestedComplete nested size) {u : RecordType}
    {fields : List Field} {slots vs : List Value} {fr : Frame}
    (hvs : c.ThroughoutSlots c.Fits u fields slots fr vs) (hsize : sizeOf vs ≤ size)
    (hspells : Spells (c.slotCells fields vs) b) (hs : s.rest = b ++ t) (hseek : s.seekable = true) :
    ∃ s', c.readFields nested u fields slots fr s = .done (slots.reverse ++ vs) s' ∧
      s.Past s' b := by
  induction vs generalizing fields slots fr s b with
  | nil =>
    rw [ThroughoutSlots] at hvs
    subst hvs
    rw [slotCells, Spells.nil_iff] at hspells
    subst hspells
    exact ⟨s, by simp [readFields], .refl s⟩
  | cons v vs ih =>
    cases fields with
    | nil => simp [ThroughoutSlots] at hvs
    | cons f fs =>
      simp only [ThroughoutSlots] at hvs
      obtain ⟨hfits, hthrough, hvs⟩ := hvs
      rw [List.cons.sizeOf_spec] at hsize
      rw [slotCells] at hspells
      obtain ⟨b₁, b₂, rfl, hspells₁, hspells₂⟩ := hspells.split
      rw [List.append_assoc] at hs
      obtain ⟨s₁, hs₁, hb₁⟩ :=
        readField_complete hn hfits hthrough (by omega) hspells₁ hs hseek
      have hb₁' := hb₁.note (.decodedField u.name f.id s.position (!v.isNull))
      obtain ⟨s₂, hs₂, hb₂⟩ := ih hvs (by omega) hspells₂ (hb₁'.rest_eq hs)
        (hb₁'.seekable.trans hseek)
      refine ⟨s₂, ?_, hb₁'.trans hb₂⟩
      simp only [readFields, hs₁, hs₂]
      simp

/-- A record that fits throughout is read from any bytes that spell it, if there are as many levels
as the record is large. -/
theorem decodeRecord_complete (c : Codec) (depth : Nat) :
    c.NestedComplete (c.decodeRecord depth) depth := by
  induction depth with
  | zero =>
    intro r context s b t hsize
    rw [Record.toValue, Value.record.sizeOf_spec] at hsize
    omega
  | succ depth ih =>
    intro r context s b t hsize hthrough hspells hs hseek
    rw [Record.toValue, Value.record.sizeOf_spec] at hsize
    rw [Record.toValue, Throughout] at hthrough
    obtain ⟨ht, hslots⟩ := hthrough
    obtain ⟨s', hs', hb⟩ := readFields_complete ih hslots (by omega) hspells hs hseek
    refine ⟨s', ?_, hb⟩
    simp only [decodeRecord, ht, hs']
    rfl

end Codec

end Savefile
