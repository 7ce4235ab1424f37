import Savefile.Proofs.Shape

/-!
# The course of a reading

A reading comes to one value after another: to the fields of a record in their order, to the
elements of a list in theirs, and inside a nested record to its fields. The moment before a value is
read is given by its field, what the expressions of the field see by then, and the input that is
left once everything before has been read. Every value of a record that was read was read at such a
moment, under the path at which it stands in the record.
-/
namespace Savefile

/-- The moment before a value is read. -/
structure Moment where
  field : Field
  /-- Whether the list of the field is read, or else a single value or an element. -/
  listed : Bool
  frame : Frame
  source : Source
  /-- How many levels are left for the records inside the value. -/
  levels : Nat

namespace Moment

/-- A record on its own is read like a field that always holds it. -/
def ofRecord (name : String) (context : Option Context) (levels : Nat) (s : Source) : Moment :=
  ⟨⟨"", ⟨name, .composite⟩, none, none⟩, false, ⟨[], context⟩, s, levels⟩

/-- The moment before an element of the list that starts here. -/
def element (m : Moment) (x : Source) : Moment := { m with listed := false, source := x }

/-- What holds of a list if it holds of its elements, and of a single value if it holds of all fields
with fewer levels left, holds at every moment. -/
theorem induction {Q : Moment → Prop}
    (listed : ∀ m : Moment, m.listed = true → (∀ x, Q (m.element x)) → Q m)
    (single : ∀ m : Moment, m.listed = false →
      (∀ g fr x levels, levels < m.levels → Q ⟨g, g.repetition.isSome, fr, x, levels⟩) → Q m)
    (m : Moment) : Q m := by
  have hsingle : ∀ m : Moment, m.listed = false → Q m := by
    intro m
    induction hlevels : m.levels using Nat.strongRecOn generalizing m with
    | ind levels ih =>
      intro hlisted
      apply single m hlisted
      intro g fr x below hbelow
      have hless : below < levels := hlevels ▸ hbelow
      cases g.repetition.isSome with
      | false => exact ih below hless ⟨g, false, fr, x, below⟩ rfl rfl
      | true =>
        apply listed ⟨g, true, fr, x, below⟩ rfl
        intro y
        exact ih below hless (element ⟨g, true, fr, x, below⟩ y) rfl rfl
  cases hlisted : m.listed with
  | false => exact hsingle m hlisted
  | true => exact listed m hlisted fun x => hsingle (m.element x) rfl

end Moment

namespace Codec

open Reader Value

/-- Reads the elements of the list at a moment one by one. -/
def elementReader (c : Codec) (m : Moment) : Reader Value :=
  c.readElement (c.decodeRecord m.levels) m.field m.frame

/-- Reads the value. -/
def readAt (c : Codec) (m : Moment) : Decoding Value :=
  if m.listed then c.readField (c.decodeRecord m.levels) m.field m.frame m.source
  else c.elementReader m m.source

/-- Having read the fields before it, a reader of records comes to the field. -/
inductive ComesToField (c : Codec) (nested : NestedDecoder) (t : RecordType) :
    List Field → List Value → Frame → Source → Field → Frame → Source → Prop
  | here (f : Field) (fs : List Field) (slots : List Value) (fr : Frame) (s : Source) :
      ComesToField c nested t (f :: fs) slots fr s f (fr.before (c.sharesAfter? t.name) t slots) s
  | later {f g : Field} {fs : List Field} {slots : List Value} {fr fr' : Frame}
      {s s' x : Source} {v : Value} :
      c.readField nested f (fr.before (c.sharesAfter? t.name) t slots) s = .done v s' →
      ComesToField c nested t fs (v :: slots)
        ((fr.before (c.sharesAfter? t.name) t slots).bind f.id v)
        (s'.note (.decodedField t.name f.id s.position (!v.isNull))) g fr' x →
      ComesToField c nested t (f :: fs) slots fr s g fr' x

/-- With `left` of `count` elements to go, a reader of lists comes to the element with the index. -/
inductive ComesToElement (read : Reader Value) (count : Nat) : Nat → Source → Nat → Source → Prop
  | here (left : Nat) (s : Source) : ComesToElement read count (left + 1) s (count - (left + 1)) s
  | later {left i : Nat} {s s' x : Source} {v : Value} : read s = .done v s' →
      ¬(emptyElementLimit < count ∧ s'.position = s.position) →
      ComesToElement read count left s' i x → ComesToElement read count (left + 1) s i x

/-- Reading a value comes to the value at a path inside it. -/
inductive Meets (c : Codec) : Moment → List PathStep → Moment → Prop
  | itself (m : Moment) : Meets c m [] m
  | element {m m' : Moment} {r : Repetition} {count i : Nat} {x : Source} {path : List PathStep} :
      m.listed = true → m.field.repetition = some r →
      r.expr.evalCount m.frame.scope = .ok count →
      ComesToElement (c.elementReader m) count count m.source i x →
      Meets c (m.element x) path m' → Meets c m (.index i :: path) m'
  | slot {m m' : Moment} {t : RecordType} {g : Field} {fr : Frame} {x : Source} {levels : Nat}
      {path : List PathStep} :
      m.listed = false → m.field.type.kind.isComposite = true → m.field.Present m.frame.scope →
      m.levels = levels + 1 → c.type? m.field.type.name = some t →
      ComesToField c (c.decodeRecord levels) t t.fields []
        (.start (if c.isRoot t.name then none else m.frame.context)) m.source g fr x →
      Meets c ⟨g, g.repetition.isSome, fr, x, levels⟩ path m' → Meets c m (.field g.id :: path) m'

variable {c : Codec} {m : Moment} {name : String} {context : Option Context} {levels : Nat}

theorem readAt_listed (h : m.listed = true) :
    c.readAt m = c.readField (c.decodeRecord m.levels) m.field m.frame m.source := if_pos h

theorem readAt_single (h : m.listed = false) : c.readAt m = c.elementReader m m.source :=
  if_neg (by simp [h])

/-- What is read where a reader comes to a field is the value of the field. -/
theorem readAt_field (g : Field) (fr : Frame) (x : Source) (levels : Nat) :
    c.readAt ⟨g, g.repetition.isSome, fr, x, levels⟩ =
      c.readField (c.decodeRecord levels) g fr x := by
  cases hr : g.repetition with
  | some r => exact readAt_listed rfl
  | none =>
    rw [readAt_single rfl]
    simp only [elementReader, readField, hr]

theorem readAt_ofRecord (s : Source) :
    c.readAt (.ofRecord name context levels s) =
      (c.decodeRecord levels name context s).map Record.toValue := rfl

/-- A list is read as its elements, once its count is known. -/
theorem readAt_counted {r : Repetition} {count : Nat} (hlisted : m.listed = true)
    (hr : m.field.repetition = some r) (hcount : r.expr.evalCount m.frame.scope = .ok count) :
    c.readAt m = (readElements (c.elementReader m) r count count [] m.source).map .list := by
  rw [readAt_listed hlisted]
  simp only [readField, hr, hcount, elementReader]

theorem elementReader_past {s s' : Source} {v : Value} (h : c.elementReader m s = .done v s') :
    ∃ b, s.Past s' b := by
  obtain ⟨-, -, b, hb, -⟩ := readElement_sound (decodeRecord_sound c m.levels) h
  exact ⟨b, hb⟩

theorem ComesToField.past {t : RecordType} {fields : List Field} {slots : List Value}
    {fr fr' : Frame} {s x : Source} {g : Field}
    (h : ComesToField c (c.decodeRecord levels) t fields slots fr s g fr' x) :
    ∃ b, s.Past x b := by
  induction h with
  | here f fs slots fr s => exact ⟨[], .refl s⟩
  | later hread _ ih =>
    obtain ⟨-, -, b, hb, -⟩ := readField_sound (decodeRecord_sound c levels) hread
    obtain ⟨b', hb'⟩ := ih
    exact ⟨b ++ b', (hb.note _).trans hb'⟩

theorem ComesToField.mem {nested : NestedDecoder} {t : RecordType} {fields : List Field}
    {slots : List Value} {fr fr' : Frame} {s x : Source} {g : Field}
    (h : ComesToField c nested t fields slots fr s g fr' x) : g ∈ fields := by
  induction h with
  | here => exact List.mem_cons_self ..
  | later _ _ ih => exact List.mem_cons_of_mem _ ih

theorem ComesToElement.past {count left i : Nat} {s x : Source}
    (h : ComesToElement (c.elementReader m) count left s i x) : ∃ b, s.Past x b := by
  induction h with
  | here left s => exact ⟨[], .refl s⟩
  | later hread _ _ ih =>
    obtain ⟨b, hb⟩ := elementReader_past hread
    obtain ⟨b', hb'⟩ := ih
    exact ⟨b ++ b', hb.trans hb'⟩

/-- Whatever a reading comes to stands behind what has been read before it. -/
theorem Meets.past {m' : Moment} {path : List PathStep} (h : c.Meets m path m') :
    ∃ b, m.source.Past m'.source b := by
  induction h with
  | itself m => exact ⟨[], .refl _⟩
  | element _ _ _ hcomes _ ih =>
    obtain ⟨b, hb⟩ := hcomes.past
    obtain ⟨b', hb'⟩ := ih
    exact ⟨b ++ b', hb.trans hb'⟩
  | slot _ _ _ _ _ hcomes _ ih =>
    obtain ⟨b, hb⟩ := hcomes.past
    obtain ⟨b', hb'⟩ := ih
    exact ⟨b ++ b', hb.trans hb'⟩

/-- The value at a place inside what is read at a moment is itself read, at a moment that the
reading comes to. -/
def ReadsAt (c : Codec) (m : Moment) (p : Place) : Prop :=
  ∃ m' s', c.Meets m p.path m' ∧ m'.field = p.field ∧ m'.listed = p.listed ∧
    c.readAt m' = .done p.value s'

theorem readElements_succ_done {read : Reader Value} {r : Repetition} {count left : Nat}
    {items all : List Value} {s s' : Source}
    (h : readElements read r count (left + 1) items s = .done all s') :
    ∃ v s₁, read s = .done v s₁ ∧ ¬(emptyElementLimit < count ∧ s₁.position = s.position) ∧
      readElements read r count left (v :: items) s₁ = .done all s' := by
  unfold readElements at h
  cases hread : read s with
  | failed stop s₁ => simp [hread] at h
  | done v s₁ =>
    simp only [hread] at h
    split at h
    · cases h
    · rename_i hguard
      exact ⟨v, s₁, rfl, hguard, h⟩

theorem readFields_cons_done {nested : NestedDecoder} {t : RecordType} {f : Field}
    {fs : List Field} {slots all : List Value} {fr : Frame} {s s' : Source}
    (h : c.readFields nested t (f :: fs) slots fr s = .done all s') :
    ∃ v s₁, c.readField nested f (fr.before (c.sharesAfter? t.name) t slots) s = .done v s₁ ∧
      c.readFields nested t fs (v :: slots)
        ((fr.before (c.sharesAfter? t.name) t slots).bind f.id v)
        (s₁.note (.decodedField t.name f.id s.position (!v.isNull))) = .done all s' := by
  unfold readFields at h
  dsimp only at h
  cases hread : c.readField nested f (fr.before (c.sharesAfter? t.name) t slots) s with
  | failed stop s₁ => simp [hread] at h
  | done v s₁ =>
    simp only [hread] at h
    exact ⟨v, s₁, rfl, h⟩

/-- The values in the elements of a list are read if those in each element are. The list of the
moment has been read up to `x`, where `left` elements are to go. -/
theorem readsAt_itemPlaces {r : Repetition} {count : Nat} (hlisted : m.listed = true)
    (hr : m.field.repetition = some r) (hcount : r.expr.evalCount m.frame.scope = .ok count)
    (helement : ∀ x v x', c.readAt (m.element x) = .done v x' →
      ∀ p ∈ places m.field false v, c.ReadsAt (m.element x) p)
    {left : Nat} (hleft : left ≤ count) {items all : List Value} {x s' : Source}
    (hreach : ∀ i y, ComesToElement (c.elementReader m) count left x i y →
      ComesToElement (c.elementReader m) count count m.source i y)
    (h : readElements (c.elementReader m) r count left items x = .done all s') :
    ∃ vs, all = items.reverse ++ vs ∧ ∀ p ∈ itemPlaces m.field (count - left) vs, c.ReadsAt m p := by
  induction left generalizing items x with
  | zero =>
    cases h
    exact ⟨[], by simp, by simp [itemPlaces]⟩
  | succ left ih =>
    obtain ⟨v, x₁, hread, hguard, h⟩ := readElements_succ_done h
    obtain ⟨vs, rfl, hvs⟩ := ih (Nat.le_of_succ_le hleft)
      (fun i y hcomes => hreach i y (.later hread hguard hcomes)) h
    refine ⟨v :: vs, by simp, ?_⟩
    have hnext : count - (left + 1) + 1 = count - left := by omega
    rw [itemPlaces, hnext]
    intro p hp
    rcases List.mem_append.mp hp with hp | hp
    · obtain ⟨q, hq, rfl⟩ := List.mem_map.mp hp
      have hsingle : c.readAt (m.element x) = .done v x₁ := (readAt_single rfl).trans hread
      obtain ⟨m', s₁, hmeets, hfield, hflag, hvalue⟩ := helement x v x₁ hsingle q hq
      exact ⟨m', s₁, .element hlisted hr hcount (hreach _ _ (.here left x)) hmeets, hfield, hflag,
        hvalue⟩
    · exact hvs p hp

theorem readsAt_listed {v : Value} {s' : Source} (hlisted : m.listed = true)
    (hrepeated : m.field.repetition.isSome = true)
    (helement : ∀ x v x', c.readAt (m.element x) = .done v x' →
      ∀ p ∈ places m.field false v, c.ReadsAt (m.element x) p)
    (h : c.readAt m = .done v s') : ∀ p ∈ places m.field true v, c.ReadsAt m p := by
  obtain ⟨r, hr⟩ := Option.isSome_iff_exists.mp hrepeated
  have hself : c.ReadsAt m ⟨[], m.field, true, v⟩ := ⟨m, s', .itself m, rfl, hlisted, h⟩
  cases hcount : r.expr.evalCount m.frame.scope with
  | error e =>
    rw [readAt_listed hlisted] at h
    simp only [readField, hr, hcount] at h
    cases h
  | ok count =>
    have hread := h
    rw [readAt_counted hlisted hr hcount] at hread
    cases hitems : readElements (c.elementReader m) r count count [] m.source with
    | failed stop s₁ => simp [hitems, Pass.map] at hread
    | done items s₁ =>
      simp only [hitems, Pass.map, Pass.done.injEq] at hread
      obtain ⟨rfl, rfl⟩ := hread
      obtain ⟨vs, hvs, hinside⟩ := readsAt_itemPlaces hlisted hr hcount helement (Nat.le_refl _)
        (fun _ _ hcomes => hcomes) hitems
      obtain rfl : items = vs := by simpa using hvs
      rw [places, if_pos rfl, List.forall_mem_cons]
      rw [Nat.sub_self] at hinside
      exact ⟨hself, hinside⟩

/-- The values in the fields of a record are read if those in each field are. Of the record at the
moment the fields before `fields` have been read. -/
theorem readsAt_slotPlaces {t : RecordType} {levels : Nat} (hsingle : m.listed = false)
    (hcomposite : m.field.type.kind.isComposite = true) (hpresent : m.field.Present m.frame.scope)
    (hlevels : m.levels = levels + 1) (ht : c.type? m.field.type.name = some t)
    (hfield : ∀ g fr x v x', c.readAt ⟨g, g.repetition.isSome, fr, x, levels⟩ = .done v x' →
      ∀ p ∈ places g g.repetition.isSome v, c.ReadsAt ⟨g, g.repetition.isSome, fr, x, levels⟩ p)
    {fields : List Field} {slots all : List Value} {fr : Frame} {x s' : Source}
    (hreach : ∀ g fr' y, ComesToField c (c.decodeRecord levels) t fields slots fr x g fr' y →
      ComesToField c (c.decodeRecord levels) t t.fields []
        (.start (if c.isRoot t.name then none else m.frame.context)) m.source g fr' y)
    (h : c.readFields (c.decodeRecord levels) t fields slots fr x = .done all s') :
    ∃ vs, all = slots.reverse ++ vs ∧ ∀ p ∈ slotPlaces fields vs, c.ReadsAt m p := by
  induction fields generalizing slots fr x with
  | nil =>
    cases h
    exact ⟨[], by simp, by simp [slotPlaces]⟩
  | cons f fs ih =>
    obtain ⟨v, x₁, hread, h⟩ := readFields_cons_done h
    obtain ⟨vs, rfl, hvs⟩ := ih (fun g fr' y hcomes => hreach g fr' y (.later hread hcomes)) h
    refine ⟨v :: vs, by simp, ?_⟩
    simp only [slotPlaces]
    intro p hp
    rcases List.mem_append.mp hp with hp | hp
    · obtain ⟨q, hq, rfl⟩ := List.mem_map.mp hp
      rw [← readAt_field] at hread
      obtain ⟨m', s₁, hmeets, hsame, hflag, hvalue⟩ := hfield f _ x v x₁ hread q hq
      have hcomes := hreach _ _ _ (.here f fs slots fr x)
      exact ⟨m', s₁, .slot hsingle hcomposite hpresent hlevels ht hcomes hmeets, hsame, hflag,
        hvalue⟩
    · exact hvs p hp

/-- What reading a single value of a field comes down to, by its condition. -/
theorem readElement_cases (c : Codec) (nested : NestedDecoder) (f : Field) (fr : Frame) :
    (f.Present fr.scope ∧ c.readElement nested f fr = c.readBase nested f.type fr.context) ∨
      (∃ cond, f.condition = some cond ∧ cond.expr.evalBool fr.scope = .ok false ∧
        c.readElement nested f fr = c.skipAbsent f.type cond.advance) ∨
      ∃ cond stop, f.condition = some cond ∧ cond.expr.evalBool fr.scope = .error stop ∧
        c.readElement nested f fr = fun s => s.unevaluated stop := by
  cases hc : f.condition with
  | none =>
    have hpresent : f.Present fr.scope := by simp [Field.Present, hc]
    exact .inl ⟨hpresent, readElement_present hpresent⟩
  | some cond =>
    cases he : cond.expr.evalBool fr.scope with
    | error stop =>
      refine .inr (.inr ⟨cond, stop, rfl, he, ?_⟩)
      funext s
      simp only [readElement, hc, he]
    | ok present =>
      cases present with
      | false => exact .inr (.inl ⟨cond, rfl, he, readElement_absent hc he⟩)
      | true =>
        have hpresent : f.Present fr.scope := by simp [Field.Present, hc, he]
        exact .inl ⟨hpresent, readElement_present hpresent⟩

/-- A single value that is a record comes from the reader of nested records. -/
theorem readElement_record {nested : NestedDecoder} {f : Field} {fr : Frame} {s s' : Source}
    {u : RecordType} {slots : List Value}
    (h : c.readElement nested f fr s = .done (.record u slots) s') :
    f.type.kind.isComposite = true ∧ f.Present fr.scope ∧
      nested f.type.name fr.context s = .done ⟨u, slots⟩ s' := by
  rcases c.readElement_cases nested f fr with ⟨hpresent, hread⟩ | ⟨cond, hc, -, hread⟩ |
      ⟨cond, e, -, -, hread⟩
  · rw [hread] at h
    unfold readBase at h
    split at h
    · rename_i hcomposite
      cases hnested : nested f.type.name fr.context s with
      | failed stop s₁ => simp [hnested, Pass.map] at h
      | done r s₁ =>
        simp only [hnested, Pass.map, Record.toValue, Pass.done.injEq, Value.record.injEq] at h
        obtain ⟨⟨rfl, rfl⟩, rfl⟩ := h
        exact ⟨hcomposite, hpresent, rfl⟩
    · cases hkind : f.type.kind with
      | composite => simp [hkind, TypeKind.isComposite] at *
      | unassigned code =>
        rw [hkind] at h
        cases h
      | primitive p =>
        rw [hkind, readScalar_primitive] at h
        obtain ⟨b, -, hvalue, -⟩ := taking_done h
        cases hvalue
  · rw [hread, skipAbsent_eq hc] at h
    obtain ⟨b, -, hvalue, -⟩ := taking_done h
    cases hvalue
  · rw [hread] at h
    cases h

/-- A record that was read has the type that was asked for, and its fields were read with one level
less. -/
theorem decodeRecord_done {s s' : Source} {u : RecordType} {slots : List Value}
    (h : c.decodeRecord levels name context s = .done ⟨u, slots⟩ s') :
    ∃ below, levels = below + 1 ∧ c.type? name = some u ∧
      c.readFields (c.decodeRecord below) u u.fields []
        (.start (if c.isRoot u.name then none else context)) s = .done slots s' := by
  cases levels with
  | zero => cases h
  | succ below =>
    cases ht : c.type? name with
    | none =>
      simp only [decodeRecord, ht] at h
      cases h
    | some t =>
      rw [decodeRecord_succ c below ht, andThen, ← type?_name ht] at h
      cases hfields : c.readFields (c.decodeRecord below) t t.fields []
          (.start (if c.isRoot t.name then none else context)) s with
      | failed stop s₁ => simp [hfields] at h
      | done all s₁ =>
        simp only [hfields, Pass.done.injEq, Record.mk.injEq] at h
        obtain ⟨⟨rfl, rfl⟩, rfl⟩ := h
        exact ⟨below, rfl, rfl, hfields⟩

/-- Each value inside what was read at a moment was read at some moment after it. -/
theorem readsAt_of_done {v : Value} {s' : Source}
    (hm : m.listed = true → m.field.repetition.isSome = true) (h : c.readAt m = .done v s') :
    ∀ p ∈ places m.field m.listed v, c.ReadsAt m p := by
  induction m using Moment.induction generalizing v s' with
  | listed m hlisted ih =>
    rw [hlisted]
    exact readsAt_listed hlisted (hm hlisted) (fun x v x' => ih x (by simp [Moment.element])) h
  | single m hlisted ih =>
    rw [hlisted]
    have hself : c.ReadsAt m ⟨[], m.field, false, v⟩ := ⟨m, s', .itself m, rfl, hlisted, h⟩
    cases v with
    | null => simpa [places] using hself
    | scalar x => simpa [places] using hself
    | foreign _ _ => simpa [places] using hself
    | list items => simpa [places] using hself
    | record u slots =>
      rw [places, List.forall_mem_cons]
      refine ⟨hself, ?_⟩
      rw [readAt_single hlisted, elementReader] at h
      obtain ⟨hcomposite, hpresent, hnested⟩ := readElement_record h
      obtain ⟨below, hbelow, ht, hfields⟩ := decodeRecord_done hnested
      have hless : below < m.levels := by omega
      obtain ⟨vs, hvs, hinside⟩ := readsAt_slotPlaces hlisted hcomposite hpresent hbelow ht
        (fun g fr x _ _ hread => ih g fr x below hless (fun h => h) hread)
        (fun _ _ _ hcomes => hcomes) hfields
      obtain rfl : slots = vs := by simpa using hvs
      exact hinside

end Codec

end Savefile
