import Savefile.Codec.Decode
import Savefile.Codec.Encode
import Savefile.Proofs.Layout
import Savefile.Record.Check

/-!
# Consistent records

A record is consistent when it could have come from a reader: every value has the shape of its
field, conditional values are there if and only if their condition is true, lists have the length of
their count, and long lists have no empty elements. Conditions and counts are evaluated in the frame
that a reader would have built by then, from the earlier values of the same record and the context.
-/
namespace Savefile

namespace Codec

mutual

/-- The predicate holds of each value of the records in a value, together with its field and the
frame that belongs to it. All these records have types of the codec, and a value for each field. -/
def Throughout (c : Codec) (P : Field → Frame → Value → Prop) (context : Option Context) :
    Value → Prop
  | .record t slots =>
    c.type? t.name = some t ∧
      ThroughoutSlots c P t t.fields [] (.start (if c.isRoot t.name then none else context)) slots
  | .list items => ThroughoutItems c P context items
  | _ => True

/-- The predicate holds throughout several values. -/
def ThroughoutItems (c : Codec) (P : Field → Frame → Value → Prop) (context : Option Context) :
    List Value → Prop
  | [] => True
  | v :: vs => Throughout c P context v ∧ ThroughoutItems c P context vs

/-- The predicate holds of the values of the fields that are left of a record, and throughout them;
the values before are newest first. -/
def ThroughoutSlots (c : Codec) (P : Field → Frame → Value → Prop) (t : RecordType)
    (fields : List Field) (before : List Value) (fr : Frame) : List Value → Prop
  | [] => fields = []
  | v :: vs =>
    match fields with
    | [] => False
    | f :: fs =>
      let fr := fr.before (c.sharesAfter? t.name) t before
      P f fr v ∧ Throughout c P fr.context v ∧
        ThroughoutSlots c P t fs (v :: before) (fr.bind f.id v) vs

end

theorem throughoutItems_iff {c : Codec} {P : Field → Frame → Value → Prop}
    {context : Option Context} {vs : List Value} :
    c.ThroughoutItems P context vs ↔ ∀ v ∈ vs, c.Throughout P context v := by
  induction vs with
  | nil => simp [ThroughoutItems]
  | cons v vs ih => simp [ThroughoutItems, ih]

theorem ThroughoutSlots.length_eq {c : Codec} {P : Field → Frame → Value → Prop} {t : RecordType}
    {fields : List Field} {before vs : List Value} {fr : Frame}
    (h : c.ThroughoutSlots P t fields before fr vs) : vs.length = fields.length := by
  induction vs generalizing fields before fr with
  | nil =>
    rw [ThroughoutSlots] at h
    simp [h]
  | cons v vs ih =>
    cases fields with
    | nil => simp [ThroughoutSlots] at h
    | cons f fs =>
      simp only [ThroughoutSlots] at h
      simp [ih h.2.2]

mutual

/-- What follows from the predicate at one value, given that both hold throughout that value,
follows everywhere. -/
theorem Throughout.imp {c : Codec} {P Q : Field → Frame → Value → Prop}
    (h : ∀ f fr v, P f fr v → c.Throughout P fr.context v → c.Throughout Q fr.context v → Q f fr v)
    (context : Option Context) :
    ∀ v : Value, c.Throughout P context v → c.Throughout Q context v
  | .record t slots, hv => by
    unfold Throughout at hv ⊢
    exact ⟨hv.1, ThroughoutSlots.imp h t t.fields [] _ slots hv.2⟩
  | .list items, hv => by
    unfold Throughout at hv ⊢
    exact ThroughoutItems.imp h context items hv
  | .null, _ => by simp [Throughout]
  | .scalar _, _ => by simp [Throughout]
  | .foreign _ _, _ => by simp [Throughout]

theorem ThroughoutItems.imp {c : Codec} {P Q : Field → Frame → Value → Prop}
    (h : ∀ f fr v, P f fr v → c.Throughout P fr.context v → c.Throughout Q fr.context v → Q f fr v)
    (context : Option Context) :
    ∀ vs : List Value, c.ThroughoutItems P context vs → c.ThroughoutItems Q context vs
  | [], _ => by simp [ThroughoutItems]
  | v :: vs, hvs => by
    unfold ThroughoutItems at hvs ⊢
    exact ⟨Throughout.imp h context v hvs.1, ThroughoutItems.imp h context vs hvs.2⟩

theorem ThroughoutSlots.imp {c : Codec} {P Q : Field → Frame → Value → Prop}
    (h : ∀ f fr v, P f fr v → c.Throughout P fr.context v → c.Throughout Q fr.context v → Q f fr v)
    (t : RecordType) (fields : List Field) (before : List Value) (fr : Frame) :
    ∀ vs : List Value, c.ThroughoutSlots P t fields before fr vs →
      c.ThroughoutSlots Q t fields before fr vs
  | [], hvs => by
    unfold ThroughoutSlots at hvs ⊢
    exact hvs
  | v :: vs, hvs => by
    cases fields with
    | nil => simp [ThroughoutSlots] at hvs
    | cons f fs =>
      simp only [ThroughoutSlots] at hvs ⊢
      obtain ⟨hp, hv, hrest⟩ := hvs
      have hq := Throughout.imp h _ v hv
      exact ⟨h f _ v hp hv hq, hq, ThroughoutSlots.imp h t fs _ _ vs hrest⟩

end

end Codec

namespace Field

/-- The values that a field's condition is about: the elements of its list, or its single value. -/
def elements (f : Field) (v : Value) : List Value :=
  match f.repetition, v with
  | some _, .list items => items
  | _, v => [v]

/-- The condition of the field, if it has one, is true. -/
def Present (f : Field) (scope : Scope) : Prop :=
  ∀ cond, f.condition = some cond → cond.expr.evalBool scope = .ok true

/-- What a single value of a field, or an element of its list, can be in a scope. -/
inductive Holds (f : Field) (scope : Scope) : Value → Prop
  | absent {cond : Condition} :
      f.condition = some cond → cond.expr.evalBool scope = .ok false → Holds f scope .null
  | scalar {s : Scalar} :
      f.Present scope → f.type.kind = .primitive s.kind → Holds f scope (.scalar s)
  | record {t : RecordType} {slots : List Value} :
      f.Present scope → f.type.kind.isComposite = true → t.name = f.type.name →
      Holds f scope (.record t slots)

end Field

namespace Codec

/-- What the value of a field can be in a frame. -/
inductive Fits (c : Codec) (f : Field) (fr : Frame) : Value → Prop
  | single {v : Value} : f.repetition = none → f.Holds fr.scope v → Fits c f fr v
  | list {r : Repetition} {items : List Value} :
      f.repetition = some r → r.expr.evalCount fr.scope = .ok items.length →
      (∀ v ∈ items, f.Holds fr.scope v) →
      (emptyElementLimit < items.length → ∀ v ∈ items, c.cells f v ≠ []) →
      Fits c f fr (.list items)

/-- A value is consistent in a frame: it has the shape of its field, its elements are there if and
only if the condition is true, there are as many as the count says, and if there are very many then
each is written as at least one byte. -/
structure SlotConsistent (c : Codec) (f : Field) (fr : Frame) (v : Value) : Prop where
  shape : v.misfit? f = none
  presence : ∀ cond, f.condition = some cond → ∀ e ∈ f.elements v,
    (e.isNull = false ↔ cond.expr.evalBool fr.scope = .ok true)
  count : ∀ r, f.repetition = some r → r.expr.evalCount fr.scope = .ok (f.elements v).length
  nonempty : emptyElementLimit < (f.elements v).length → ∀ e ∈ f.elements v,
    ∃ out, c.writeValue .memory f none fr e .empty = .done () out ∧ out.bytes ≠ []

/-- Moreover the condition of each element has a value. -/
structure SlotSettled (c : Codec) (f : Field) (fr : Frame) (v : Value) : Prop
    extends c.SlotConsistent f fr v where
  decided : ∀ cond, f.condition = some cond → ∀ e ∈ f.elements v,
    ∃ b, cond.expr.evalBool fr.scope = .ok b

/-- A root record all of whose values are consistent, at every depth. -/
structure Consistent (c : Codec) (r : Record) : Prop where
  root : r.type = c.schema.root
  slots : c.Throughout c.SlotConsistent none r.toValue

/-- A consistent root record all of whose conditions have a value. -/
structure Settled (c : Codec) (r : Record) : Prop where
  root : r.type = c.schema.root
  slots : c.Throughout c.SlotSettled none r.toValue

theorem Settled.consistent {c : Codec} {r : Record} (h : c.Settled r) : c.Consistent r :=
  ⟨h.root, Throughout.imp (fun _ _ _ hs _ _ => hs.toSlotConsistent) none _ h.slots⟩

end Codec

end Savefile
