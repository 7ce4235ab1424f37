import Savefile.Proofs.Graph
import Savefile.Proofs.Obtained
import Savefile.Record.Store

/-!
# Records that share records

In a store several records can hold the same record, and a change to it shows in all of them. The
check of a change looks at the types of nested records and not inside them; but the types of records
never change, so what was checked once stays right. Hence all records of a store that a codec's
records are put into and changed in are well shaped, and a writer never refuses a value in them.
-/
namespace Savefile

namespace Value

mutual

/-- The value without what is inside its records. -/
def outline : Value → Value
  | .record t _ => .record t []
  | .list items => .list (outlines items)
  | v => v

/-- The values without what is inside their records. -/
def outlines : List Value → List Value
  | [] => []
  | v :: vs => v.outline :: outlines vs

end

theorem outlines_eq_map (vs : List Value) : outlines vs = vs.map outline := by
  induction vs with
  | nil => rfl
  | cons v vs ih => rw [outlines, ih, List.map_cons]

theorem fitsAs_outline_single {f : Field} {v : Value} :
    v.outline.FitsAs f false ↔ v.FitsAs f false := by
  cases v with
  | record t slots =>
    unfold outline
    constructor
    · rintro ⟨⟩
      exact .record ‹_› ‹_›
    · rintro ⟨⟩
      exact .record ‹_› ‹_›
  | list items =>
    unfold outline
    constructor <;> rintro ⟨⟩
  | null => rfl
  | scalar x => rfl
  | foreign representation text => rfl

/-- Whether a value fits depends on its outline only. -/
theorem fitsAs_outline {f : Field} {listed : Bool} {v : Value} :
    v.outline.FitsAs f listed ↔ v.FitsAs f listed := by
  cases listed with
  | false => exact fitsAs_outline_single
  | true =>
    cases v with
    | list items =>
      rw [outline, outlines_eq_map]
      constructor
      · intro h
        cases h with
        | list hitems =>
          refine .list fun v hv => fitsAs_outline_single.mp (hitems _ (List.mem_map_of_mem hv))
      · intro h
        cases h with
        | list hitems =>
          apply FitsAs.list
          intro w hw
          obtain ⟨v, hv, rfl⟩ := List.mem_map.mp hw
          exact fitsAs_outline_single.mpr (hitems v hv)
    | record t slots =>
      unfold outline
      constructor <;> rintro ⟨⟩
    | null => rfl
    | scalar x => rfl
    | foreign representation text => rfl

theorem misfit?_of_outline {f : Field} {v w : Value} (h : v.outline = w.outline)
    (hv : v.misfit? f = none) : w.misfit? f = none := by
  rw [misfit?_eq_none_iff] at hv ⊢
  rwa [← fitsAs_outline, ← h, fitsAs_outline]

end Value

namespace Slot

mutual

/-- The numbers of the records that a slot refers to. -/
def numbers : Slot → List Nat
  | .record number => [number]
  | .list items => numbersIn items
  | _ => []

/-- The numbers of the records that several slots refer to. -/
def numbersIn : List Slot → List Nat
  | [] => []
  | slot :: slots => slot.numbers ++ numbersIn slots

end

theorem mem_numbersIn {m : Nat} {slots : List Slot} :
    m ∈ numbersIn slots ↔ ∃ slot ∈ slots, m ∈ slot.numbers := by
  induction slots with
  | nil => simp [numbersIn]
  | cons slot slots ih => simp [numbersIn, ih]

end Slot

namespace Store

open Value Slot
open Codec (SlotShaped)

section Views

variable {view view' : Nat → Value}

theorem valuesWith_eq_map (slots : List Slot) :
    valueWith.valuesWith view slots = slots.map (valueWith view) := by
  induction slots with
  | nil => rfl
  | cons slot slots ih => rw [valueWith.valuesWith, ih, List.map_cons]

mutual

theorem outline_valueWith : ∀ slot : Slot,
    (∀ m ∈ slot.numbers, (view m).outline = (view' m).outline) →
    (valueWith view slot).outline = (valueWith view' slot).outline
  | .record number, h => by
    unfold valueWith
    exact h number (by simp [numbers])
  | .list items, h => by
    unfold valueWith outline
    rw [outlines_valuesWith items h]
  | .null, _ => rfl
  | .scalar _, _ => rfl
  | .foreign _ _, _ => rfl

theorem outlines_valuesWith : ∀ slots : List Slot,
    (∀ m ∈ numbersIn slots, (view m).outline = (view' m).outline) →
    outlines (valueWith.valuesWith view slots) = outlines (valueWith.valuesWith view' slots)
  | [], _ => rfl
  | slot :: slots, h => by
    rw [numbersIn, List.forall_mem_append] at h
    rw [valueWith.valuesWith, valueWith.valuesWith, outlines, outlines,
      outline_valueWith slot h.1, outlines_valuesWith slots h.2]

end

mutual

/-- What holds throughout the records that a slot refers to holds throughout its value. -/
theorem throughout_valueWith {c : Codec} {P : Field → Frame → Value → Prop}
    {context : Option Context} : ∀ slot : Slot,
    (∀ m ∈ slot.numbers, c.Throughout P context (view m)) →
      c.Throughout P context (valueWith view slot)
  | .record number, h => by
    unfold valueWith
    exact h number (by simp [numbers])
  | .list items, h => by
    unfold valueWith Codec.Throughout
    exact throughout_valuesWith items h
  | .null, _ => by simp [valueWith, Codec.Throughout]
  | .scalar _, _ => by simp [valueWith, Codec.Throughout]
  | .foreign _ _, _ => by simp [valueWith, Codec.Throughout]

theorem throughout_valuesWith {c : Codec} {P : Field → Frame → Value → Prop}
    {context : Option Context} : ∀ slots : List Slot,
    (∀ m ∈ numbersIn slots, c.Throughout P context (view m)) →
      c.ThroughoutItems P context (valueWith.valuesWith view slots)
  | [], _ => by simp [valueWith.valuesWith, Codec.ThroughoutItems]
  | slot :: slots, h => by
    rw [numbersIn, List.forall_mem_append] at h
    rw [valueWith.valuesWith, Codec.ThroughoutItems]
    exact ⟨throughout_valueWith slot h.1, throughout_valuesWith slots h.2⟩

end

end Views

variable {c : Codec} {st st' st'' : Store}

theorem outline_viewWithin {depth number : Nat} {r : StoredRecord}
    (h : st.records[number]? = some r) (hdepth : 0 < depth) :
    (st.viewWithin depth number).outline = .record r.type [] := by
  cases depth with
  | zero => cases hdepth
  | succ depth => simp [viewWithin, h, outline]

/-- Every record of the first store is in the second, under the same number and with the same
type. -/
def Kept (st st' : Store) : Prop :=
  ∀ (number : Nat) (r : StoredRecord), st.records[number]? = some r →
    ∃ r', st'.records[number]? = some r' ∧ StoredRecord.type r' = r.type

theorem Kept.refl (st : Store) : st.Kept st := fun _ r h => ⟨r, h, rfl⟩

theorem Kept.lt (h : st.Kept st') {m : Nat} (hm : m < st.records.size) : m < st'.records.size := by
  obtain ⟨r', hr', -⟩ := h m _ (Array.getElem?_eq_getElem hm)
  exact (Array.getElem?_eq_some_iff.mp hr').1

/-- However deep the views of a record, they have the same outline. -/
theorem Kept.outline_viewWithin (h : st.Kept st') {m depth depth' : Nat}
    (hm : m < st.records.size) (hdepth : 0 < depth) (hdepth' : 0 < depth') :
    (st.viewWithin depth m).outline = (st'.viewWithin depth' m).outline := by
  have hr := Array.getElem?_eq_getElem hm
  obtain ⟨r', hr', htype⟩ := h m _ hr
  rw [Store.outline_viewWithin hr hdepth, Store.outline_viewWithin hr' hdepth', htype]

theorem Kept.outline_value (h : st.Kept st') {slot : Slot}
    (hslot : ∀ m ∈ slot.numbers, m < st.records.size) :
    (st.value slot).outline = (st'.value slot).outline := by
  apply outline_valueWith
  intro m hm
  have hlt := hslot m hm
  exact h.outline_viewWithin hlt (Nat.zero_lt_of_lt hlt) (Nat.zero_lt_of_lt (h.lt hlt))

/-- A slot refers to records of the store and has the shape of a field. -/
structure Fits (st : Store) (f : Field) (slot : Slot) : Prop where
  known : ∀ m ∈ slot.numbers, m < st.records.size
  shape : (st.value slot).misfit? f = none

theorem Fits.kept {f : Field} {slot : Slot} (h : st.Fits f slot) (hkept : st.Kept st') :
    st'.Fits f slot :=
  ⟨fun m hm => hkept.lt (h.known m hm), misfit?_of_outline (hkept.outline_value h.known) h.shape⟩

/-- All records have types of the codec, and slots that fit their fields. -/
structure Sound (c : Codec) (st : Store) : Prop where
  type : ∀ (number : Nat) (r : StoredRecord), st.records[number]? = some r →
    c.type? r.type.name = some r.type
  slots : ∀ (number : Nat) (r : StoredRecord), st.records[number]? = some r →
    List.Forall₂ st.Fits r.type.fields r.slots

theorem sound_empty : Sound c .empty :=
  ⟨fun number r h => by simp [empty] at h, fun number r h => by simp [empty] at h⟩

theorem Sound.of_kept (hst : Sound c st) (hkept : st.Kept st')
    (h : ∀ (number : Nat) (r' : StoredRecord), st'.records[number]? = some r' →
      st.records[number]? = some r' ∨
        c.type? r'.type.name = some r'.type ∧ List.Forall₂ st'.Fits r'.type.fields r'.slots) :
    Sound c st' := by
  constructor
  · intro number r' hr'
    rcases h number r' hr' with hr | ⟨htype, -⟩
    · exact hst.type number r' hr
    · exact htype
  · intro number r' hr'
    rcases h number r' hr' with hr | ⟨-, hslots⟩
    · exact (hst.slots number r' hr).imp fun _ _ hfits => hfits.kept hkept
    · exact hslots

section Change

theorem set_ok {number : Nat} {id : String} {slot : Slot}
    (h : st.set number id slot = .ok st') :
    st' = st ∨ ∃ (r : StoredRecord) (i : Nat) (f : Field), st.records[number]? = some r ∧
      r.type.fields[i]? = some f ∧ (st.value slot).misfit? f = none ∧
      st' = ⟨st.records.setIfInBounds number { r with slots := r.slots.set i slot }⟩ := by
  unfold set at h
  split at h
  · cases h
    exact .inl rfl
  · rename_i r hr
    obtain ⟨i, hi, rfl⟩ := exists_of_map_ok h
    unfold Record.checkSet at hi
    split at hi
    · cases hi
    · split at hi
      · cases hi
      · rename_i f hf
        split at hi
        · cases hi
        · rename_i hshape
          cases hi
          exact .inr ⟨r, i, f, hr, hf, hshape, rfl⟩

theorem forall₂_set {α β : Type} {R : α → β → Prop} {xs : List α} {ys : List β}
    (h : List.Forall₂ R xs ys) {i : Nat} {y : β} (hy : ∀ x, xs[i]? = some x → R x y) :
    List.Forall₂ R xs (ys.set i y) := by
  induction h generalizing i with
  | nil => exact .nil
  | cons hhead htail ih =>
    cases i with
    | zero => exact .cons (hy _ rfl) htail
    | succ i => exact .cons hhead (ih hy)

theorem kept_set {number : Nat} {r q : StoredRecord} (hr : st.records[number]? = some r)
    (htype : q.type = r.type) : st.Kept ⟨st.records.setIfInBounds number q⟩ := by
  intro m r' hr'
  by_cases hm : number = m
  · subst hm
    obtain rfl : r = r' := Option.some.inj (hr.symm.trans hr')
    have hlt := (Array.getElem?_eq_some_iff.mp hr).1
    exact ⟨q, Array.getElem?_setIfInBounds_self_of_lt hlt, htype⟩
  · exact ⟨r', by rw [Array.getElem?_setIfInBounds_ne hm, hr'], rfl⟩

/-- A change that is accepted keeps the types of all records, and every slot's fit. -/
theorem Sound.set (hst : Sound c st) {number : Nat} {id : String} {slot : Slot}
    (hknown : ∀ m ∈ slot.numbers, m < st.records.size) (h : st.set number id slot = .ok st') :
    Sound c st' := by
  rcases set_ok h with rfl | ⟨r, i, f, hr, hf, hshape, rfl⟩
  · exact hst
  have hlt := (Array.getElem?_eq_some_iff.mp hr).1
  have hkept : st.Kept ⟨st.records.setIfInBounds number ⟨r.type, r.slots.set i slot⟩⟩ :=
    kept_set hr rfl
  refine hst.of_kept hkept ?_
  intro m q hq
  by_cases hm : number = m
  · subst hm
    rw [Array.getElem?_setIfInBounds_self_of_lt hlt] at hq
    cases hq
    refine .inr ⟨hst.type number r hr, forall₂_set ?_ ?_⟩
    · exact (hst.slots number r hr).imp fun _ _ hfits => hfits.kept hkept
    · intro g hg
      obtain rfl : f = g := Option.some.inj (hf.symm.trans hg)
      exact Fits.kept ⟨hknown, hshape⟩ hkept
  · rw [Array.getElem?_setIfInBounds_ne hm] at hq
    exact .inl hq

end Change

section Addition

/-- The first store has the first records of the second. -/
def Begins (st st' : Store) : Prop :=
  ∀ n < st.records.size, st'.records[n]? = st.records[n]?

theorem Begins.refl (st : Store) : st.Begins st := fun _ _ => rfl

theorem Begins.size_le (h : st.Begins st') : st.records.size ≤ st'.records.size := by
  by_contra hlt
  have hnone := h st'.records.size (Nat.lt_of_not_le hlt)
  rw [Array.getElem?_eq_none (Nat.le_refl _)] at hnone
  exact hlt (Array.getElem?_eq_none_iff.mp hnone.symm)

theorem Begins.trans (h : st.Begins st') (h' : st'.Begins st'') : st.Begins st'' :=
  fun n hn => (h' n (Nat.lt_of_lt_of_le hn h.size_le)).trans (h n hn)

theorem Begins.kept (h : st.Begins st') : st.Kept st' := by
  intro n r hr
  exact ⟨r, (h n (Array.getElem?_eq_some_iff.mp hr).1).trans hr, rfl⟩

theorem begins_push (st : Store) (r : StoredRecord) : st.Begins ⟨st.records.push r⟩ := by
  intro n hn
  rw [Array.getElem?_push, if_neg (Nat.ne_of_lt hn)]

/-- A value was put into a store under a slot: the store has grown, the slot refers to records of
it, and whatever is put in later, the slot's value is that value. It nests no deeper than the number
of records that were added. -/
structure Put (st : Store) (v : Value) (slot : Slot) (st' : Store) : Prop where
  begins : st.Begins st'
  known : ∀ m ∈ slot.numbers, m < st'.records.size
  value : ∀ (st'' : Store) (depth : Nat), st'.Begins st'' →
    st'.records.size ≤ st.records.size + depth → valueWith (st''.viewWithin depth) slot = v

mutual

theorem put_addValue : ∀ (v : Value) (st : Store),
    st.Put v (st.addValue v).1 (st.addValue v).2
  | .record t vs, st => by
    have h := put_addValues vs st
    unfold addValue
    dsimp only
    generalize (st.addValues vs).1 = slots, (st.addValues vs).2 = st₁ at h
    refine ⟨h.begins.trans (begins_push _ _), by simp [numbers], ?_⟩
    intro st'' depth hbegins hdepth
    have hsize := h.begins.size_le
    rw [Array.size_push] at hdepth
    obtain ⟨depth, rfl⟩ : ∃ d, depth = d + 1 := ⟨depth - 1, by omega⟩
    have hrecord : st''.records[st₁.records.size]? = some ⟨t, slots⟩ := by
      rw [hbegins _ (by simp)]
      exact Array.getElem?_push_size
    have hslots := h.value st'' depth ((begins_push _ _).trans hbegins) (by omega)
    rw [valueWith, valuesWith_eq_map, Value.list.injEq] at hslots
    simp only [valueWith, viewWithin, hrecord, hslots]
  | .list vs, st => by
    unfold addValue
    exact put_addValues vs st
  | .null, st => ⟨.refl st, by simp [addValue, numbers], fun _ _ _ _ => rfl⟩
  | .scalar _, st => ⟨.refl st, by simp [addValue, numbers], fun _ _ _ _ => rfl⟩
  | .foreign _ _, st => ⟨.refl st, by simp [addValue, numbers], fun _ _ _ _ => rfl⟩

theorem put_addValues : ∀ (vs : List Value) (st : Store),
    st.Put (.list vs) (.list (st.addValues vs).1) (st.addValues vs).2
  | [], st => ⟨.refl st, by simp [addValues, numbers, numbersIn], fun _ _ _ _ => rfl⟩
  | v :: vs, st => by
    have hfirst := put_addValue v st
    have hrest := put_addValues vs (st.addValue v).2
    unfold addValues
    dsimp only
    have hsize := hfirst.begins.size_le
    have hsize' := hrest.begins.size_le
    refine ⟨hfirst.begins.trans hrest.begins, ?_, ?_⟩
    · rw [numbers, numbersIn, List.forall_mem_append]
      exact ⟨fun m hm => Nat.lt_of_lt_of_le (hfirst.known m hm) hsize', hrest.known⟩
    · intro st'' depth hbegins hdepth
      have hhead := hfirst.value st'' depth (hrest.begins.trans hbegins) (by omega)
      have htail := hrest.value st'' depth hbegins (by omega)
      rw [valueWith, Value.list.injEq] at htail
      rw [valueWith, valueWith.valuesWith, hhead, htail]

end

theorem map_value_addValues (vs : List Value) (st : Store) {st'' : Store}
    (h : (st.addValues vs).2.Begins st'') : (st.addValues vs).1.map st''.value = vs := by
  have hvalue := (put_addValues vs st).value st'' st''.records.size h
    (Nat.le_trans h.size_le (Nat.le_add_left ..))
  rwa [valueWith, valuesWith_eq_map, Value.list.injEq] at hvalue

theorem Sound.push (hst : Sound c st) {t : RecordType} {slots : List Slot}
    (htype : c.type? t.name = some t) (hslots : List.Forall₂ st.Fits t.fields slots) :
    Sound c ⟨st.records.push ⟨t, slots⟩⟩ := by
  have hkept := (st.begins_push ⟨t, slots⟩).kept
  refine hst.of_kept hkept ?_
  intro m q hq
  rw [Array.getElem?_push] at hq
  split at hq
  · cases hq
    exact .inr ⟨htype, hslots.imp fun _ _ hfits => hfits.kept hkept⟩
  · exact .inl hq

theorem forall₂_imp_mem {α β : Type} {R S : α → β → Prop} {xs : List α} {ys : List β}
    (h : List.Forall₂ R xs ys) (himp : ∀ x y, y ∈ ys → R x y → S x y) : List.Forall₂ S xs ys := by
  induction h with
  | nil => exact .nil
  | cons hhead _ ih =>
    refine .cons (himp _ _ (List.mem_cons_self ..) hhead) (ih ?_)
    exact fun x y hy => himp x y (List.mem_cons_of_mem _ hy)

theorem fits_addValues {fields : List Field} {vs : List Value} (h : c.ShapedSlots fields vs)
    (st : Store) : List.Forall₂ (st.addValues vs).2.Fits fields (st.addValues vs).1 := by
  have hput := put_addValues vs st
  unfold Codec.ShapedSlots at h
  rw [← map_value_addValues vs st (.refl _), List.forall₂_map_right_iff] at h
  refine forall₂_imp_mem h ?_
  intro f slot hslot hshape
  exact ⟨fun m hm => hput.known m (mem_numbersIn.mpr ⟨slot, hslot, hm⟩), hshape.1⟩

mutual

theorem sound_addValue : ∀ (v : Value) (st : Store), Sound c st →
    c.Throughout SlotShaped none v → Sound c (st.addValue v).2
  | .record t vs, st, hst, hv => by
    obtain ⟨htype, hshaped⟩ := Codec.shaped_record_iff.mp hv
    have hsound := sound_addValues vs st hst hshaped.inside
    unfold addValue
    exact hsound.push htype (fits_addValues hshaped st)
  | .list vs, st, hst, hv => by
    rw [Codec.Throughout, Codec.throughoutItems_iff] at hv
    unfold addValue
    exact sound_addValues vs st hst hv
  | .null, _, hst, _ => hst
  | .scalar _, _, hst, _ => hst
  | .foreign _ _, _, hst, _ => hst

theorem sound_addValues : ∀ (vs : List Value) (st : Store), Sound c st →
    (∀ v ∈ vs, c.Throughout SlotShaped none v) → Sound c (st.addValues vs).2
  | [], _, hst, _ => hst
  | v :: vs, st, hst, h => by
    rw [List.forall_mem_cons] at h
    unfold addValues
    exact sound_addValues vs _ (sound_addValue v st hst h.1) h.2

end

theorem Sound.add (hst : Sound c st) {r : Record} (hr : c.Shaped r) : Sound c (st.add r).2 := by
  have h := sound_addValue r.toValue st hst hr
  unfold Record.toValue addValue at h
  exact h

end Addition

section Circles

open Relation

/-- The numbers of the records that the record under a number refers to. -/
def referred (st : Store) (number : Nat) : List Nat :=
  (st.records[number]?.map fun r => numbersIn r.slots).getD []

/-- The first record refers to the second. -/
def Refers (st : Store) (n m : Nat) : Prop := m ∈ st.referred n

/-- From the record no record is reached that leads back to itself. -/
def Grounded (st : Store) (number : Nat) : Prop :=
  ∀ m, ReflTransGen st.Refers number m → ¬TransGen st.Refers m m

variable {n m : Nat}

theorem refers_of_mem {r : StoredRecord} {slot : Slot} (hr : st.records[n]? = some r)
    (hslot : slot ∈ r.slots) (hm : m ∈ slot.numbers) : st.Refers n m := by
  unfold Refers referred
  rw [hr, Option.map_some, Option.getD_some, mem_numbersIn]
  exact ⟨slot, hslot, hm⟩

theorem Grounded.of_refers (h : st.Grounded n) (hm : st.Refers n m) : st.Grounded m :=
  fun k hk => h k (.head hm hk)

theorem lt_size_of_refers (h : st.Refers n m) : n < st.records.size := by
  unfold Refers referred at h
  cases hr : st.records[n]? with
  | none => simp [hr] at h
  | some r => exact (Array.getElem?_eq_some_iff.mp hr).1

/-- Records that refer to earlier ones only are grounded. -/
theorem grounded_of_lt (h : ∀ n < st.records.size, ∀ m ∈ st.referred n, m < n) (number : Nat) :
    st.Grounded number := by
  intro m _ hcircle
  have hlt : ∀ {a b}, TransGen st.Refers a b → b < a := by
    intro a b hab
    induction hab with
    | single hstep => exact h _ (lt_size_of_refers hstep) _ hstep
    | tail _ hstep ih => exact Nat.lt_trans (h _ (lt_size_of_refers hstep) _ hstep) ih
  exact Nat.lt_irrefl m (hlt hcircle)

/-- The view of a grounded record is well shaped if it is deep enough for the records that are
still ahead. -/
theorem Sound.throughout_viewWithin (hst : Sound c st) {depth : Nat} (hn : n < st.records.size)
    (hground : st.Grounded n)
    (hdepth : (Graph.ahead (Finset.range st.records.size) st.Refers n).card < depth) :
    c.Throughout SlotShaped none (st.viewWithin depth n) := by
  induction depth generalizing n with
  | zero => cases hdepth
  | succ depth ih =>
    have hr := Array.getElem?_eq_getElem hn
    generalize st.records[n] = r at hr
    simp only [viewWithin, hr]
    refine Codec.shaped_record_iff.mpr ⟨hst.type n r hr, ?_⟩
    unfold Codec.ShapedSlots
    rw [List.forall₂_map_right_iff]
    refine forall₂_imp_mem (hst.slots n r hr) ?_
    intro f slot hslot hfits
    have hahead : ∀ m ∈ slot.numbers, st.Refers n m ∧
        (Graph.ahead (Finset.range st.records.size) st.Refers m).card < depth := by
      intro m hm
      have hrefers := refers_of_mem hr hslot hm
      have hnot : ¬TransGen st.Refers m n := fun hback => hground n .refl (.head hrefers hback)
      have hlt := Graph.card_ahead_lt hrefers (Finset.mem_range.mpr (hfits.known m hm)) hnot
      exact ⟨hrefers, Nat.lt_of_lt_of_le hlt (Nat.le_of_lt_succ hdepth)⟩
    constructor
    · refine misfit?_of_outline (outline_valueWith slot ?_) hfits.shape
      intro m hm
      have hlt := hfits.known m hm
      exact (Kept.refl st).outline_viewWithin hlt (Nat.zero_lt_of_lt hlt)
        (Nat.zero_lt_of_lt (hahead m hm).2)
    · apply throughout_valueWith
      intro m hm
      exact ih (hfits.known m hm) (hground.of_refers (hahead m hm).1) (hahead m hm).2

theorem toValue_of_get? {r : Record} (h : st.get? n = some r) :
    n < st.records.size ∧ r.toValue = st.viewWithin (st.records.size + 1) n := by
  unfold get? at h
  obtain ⟨q, hq, rfl⟩ := Option.map_eq_some_iff.mp h
  refine ⟨(Array.getElem?_eq_some_iff.mp hq).1, ?_⟩
  simp only [viewWithin, hq, Record.toValue]
  rfl

/-- A grounded record of a sound store is well shaped, with all records inside it. -/
theorem Sound.shaped (hst : Sound c st) {r : Record} (h : st.get? n = some r)
    (hground : st.Grounded n) : c.Shaped r := by
  obtain ⟨hn, hview⟩ := toValue_of_get? h
  unfold Codec.Shaped
  rw [hview]
  apply hst.throughout_viewWithin hn hground
  have hlt := Graph.card_ahead_lt_card (R := st.Refers) (Finset.mem_range.mpr hn)
  rw [Finset.card_range] at hlt
  exact Nat.lt_succ_of_lt hlt

end Circles

end Store

namespace Codec

open Value

variable {c : Codec}

/-- The stores in which a codec's records are kept and changed: what is kept came from the codec,
and a change is accepted and refers to records of the store only. -/
inductive Reached (c : Codec) : Store → Prop
  | empty : Reached c .empty
  | add {st : Store} {r : Record} : Reached c st → c.Obtained r → Reached c (st.add r).2
  | set {st st' : Store} {number : Nat} {id : String} {slot : Slot} : Reached c st →
      (∀ m ∈ slot.numbers, m < st.records.size) → st.set number id slot = .ok st' → Reached c st'

theorem Reached.sound {s : Schema} {options : CodecOptions} (hs : s.Accepted)
    (hc : compile (some s) options = .ok c) {st : Store} (h : c.Reached st) : st.Sound c := by
  induction h with
  | empty => exact Store.sound_empty
  | add _ hr ih => exact ih.add (hr.shaped hs hc)
  | set _ hknown hset ih => exact ih.set hknown hset

/-- A lenient codec writes exactly the well shaped root records, and refuses any other with the way
to its first value of the wrong kind. The records that come from a codec are well shaped. In the
stores in which they are kept and changed every slot has the shape of its field; so the records
there are well shaped inside too, unless they lead in circles and have no end, and no value of them
is refused. -/
theorem encode_lenient_iff_shaped {s : Schema} {options : CodecOptions} (hs : s.Accepted)
    (hc : compile (some s) options = .ok c) :
    (options.lenient = true →
      ∀ r : Option Record, (∀ q, r = some q → c.Typed q.toValue) →
        ((∃ bytes, c.encode r = .ok bytes) ↔ ∃ q, r = some q ∧ q.type = s.root ∧ c.Shaped q) ∧
          ∀ stop, c.encode r = .error stop →
            ∃ e, stop = .error e ∧ e.kind = .invalid ∧ c.FirstWrong r e.path) ∧
    (∀ r, c.Obtained r → c.Shaped r ∧ c.NeverRefuses r) ∧
    ∀ st, c.Reached st → ∀ n,
      (∀ stored : StoredRecord, st.records[n]? = some stored →
        List.Forall₂ (fun f slot => (st.value slot).misfit? f = none)
          stored.type.fields stored.slots) ∧
      ∀ r, st.get? n = some r → st.Grounded n → c.Shaped r ∧ c.NeverRefuses r := by
  have hl := linked_of_compile hs hc
  refine ⟨?_, ?_, ?_⟩
  · intro hlenient r hr
    have hsame : c = ⟨s, options⟩ := compile_ok hc
    have h := encode_lenient hl (by rw [hsame]; exact hlenient) r hr
    rwa [show c.schema.root = s.root by rw [hsame]] at h
  · intro r hr
    have hshaped := hr.shaped hs hc
    exact ⟨hshaped, hshaped.neverRefuses hl⟩
  · intro st hst n
    have hsound := hst.sound hs hc
    refine ⟨?_, ?_⟩
    · intro stored hstored
      exact (hsound.slots n stored hstored).imp fun _ _ hfits => hfits.shape
    · intro r hget hground
      have hshaped := hsound.shaped hget hground
      exact ⟨hshaped, hshaped.neverRefuses hl⟩

/-- A new root record takes another new record twice and can be written. With nothing in its list
where a record should be it can not. -/
theorem encode_lenient_iff_shaped_twice :
    ∃ s c, Schema.parse ("types:\n  P:\n  - id: v\n    type: u8\n" ++
        "items:\n- id: n\n  type: u8\n- id: ps\n  type: '[]P'\n  repeat: Count(n)").toUTF8.toList =
          .ok s ∧
      compile (some s) ⟨true, none⟩ = .ok c ∧
      ∃ p r, c.newRecord "P" = .ok p ∧ c.newRecord s.root.name = .ok r ∧
        (∃ e, c.encode (some ⟨r.type, r.slots.set 1 (.list [.foreign "*codec.Record" "<nil>"])⟩) =
            .error (.error e) ∧ e.kind = .invalid ∧ e.path = [.field "ps", .index 0]) ∧
        ∃ st, ((Store.empty.add p).2.add r).2.set 1 "ps" (.list [.record 0, .record 0]) = .ok st ∧
          ∃ q, st.get? 1 = some q ∧ c.NeverRefuses q ∧ ∃ bytes, c.encode (some q) = .ok bytes := by
  refine exists_of_parse (fun c => (c.newRecord "P").toOption.bind fun p =>
    (c.newRecord c.schema.root.name).toOption.bind fun r =>
      (((Store.empty.add p).2.add r).2.set 1 "ps" (.list [.record 0, .record 0])).toOption.bind
        fun st => (st.get? 1).bind fun q =>
          some (firstWrong? (slotPlaces r.type.fields
              (r.slots.set 1 (.list [.foreign "*codec.Record" "<nil>"]))),
            r.type.name == c.schema.root.name, q.type.name == c.schema.root.name,
            ((Store.empty.add p).2.add r).2.records.size,
            decide (∀ n < st.records.size, ∀ m ∈ st.referred n, m < n)))
    (some [.field "ps", .index 0], true, true, 2, true) (by decide +kernel) ?_
  intro s c hs hc h
  obtain ⟨p, hp, h⟩ := Option.bind_eq_some_iff.mp h
  obtain ⟨r, hr, h⟩ := Option.bind_eq_some_iff.mp h
  obtain ⟨st, hst, h⟩ := Option.bind_eq_some_iff.mp h
  obtain ⟨q, hq, h⟩ := Option.bind_eq_some_iff.mp h
  simp only [Option.some.injEq, Prod.mk.injEq, decide_eq_true_eq, beq_iff_eq] at h
  obtain ⟨hwrong, hrname, hqname, hsize, hlower⟩ := h
  have hp := eq_ok_of_toOption hp
  have hr := eq_ok_of_toOption hr
  have hst := eq_ok_of_toOption hst
  have hschema : c.schema = s := by rw [compile_ok hc]
  obtain ⟨hencode, hobtained, hreached⟩ := encode_lenient_iff_shaped (.of_parse hs) hc
  have hrtyped := (hobtained r (.new hr)).1.typed
  have hstore : c.Reached st := by
    refine .set (.add (.add .empty (.new hp)) (.new hr)) ?_ hst
    rw [hsize]
    simp [Slot.numbers, Slot.numbersIn]
  obtain ⟨hshaped, hnever⟩ := (hreached st hstore 1).2 q hq (Store.grounded_of_lt hlower 1)
  have hqroot := type_eq_root hshaped.typed hqname
  refine ⟨p, r, hp, hschema ▸ hr, ?_, st, hst, q, hq, hnever, ?_⟩
  · obtain ⟨ht, hlength, hslots⟩ := typed_record_iff.mp hrtyped
    have htyped : c.Typed (Record.toValue ⟨r.type,
        r.slots.set 1 (.list [.foreign "*codec.Record" "<nil>"])⟩) := by
      refine typed_record_iff.mpr ⟨ht, by rw [List.length_set, hlength], ?_⟩
      intro v hv
      rcases List.mem_or_eq_of_mem_set hv with hv | rfl
      · exact hslots v hv
      · simp [Typed, Throughout, ThroughoutItems]
    obtain ⟨hok, herror⟩ := hencode rfl (some _) (by rintro _ ⟨⟩; exact htyped)
    cases hbad : c.encode (some ⟨r.type,
        r.slots.set 1 (.list [.foreign "*codec.Record" "<nil>"])⟩) with
    | ok bytes =>
      obtain ⟨_, ⟨⟩, -, hshaped⟩ := hok.mp ⟨bytes, hbad⟩
      rw [shaped_iff htyped, hwrong] at hshaped
      cases hshaped
    | error stop =>
      obtain ⟨e, rfl, hkind, hfirst⟩ := herror stop hbad
      have hpath := hfirst.of_root (type_eq_root htyped hrname)
      exact ⟨e, rfl, hkind, Option.some.inj (hpath.symm.trans hwrong)⟩
  · apply (hencode rfl (some q) ?_).1.mpr
    · exact ⟨q, rfl, hschema ▸ hqroot, hshaped⟩
    · rintro _ ⟨⟩
      exact hshaped.typed

end Codec

end Savefile
