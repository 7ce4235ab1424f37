import Savefile.Codec.Decode
import Savefile.Proofs.Linking

/-!
# Readers and their laws

Reading a record is put together from few parts: taking bytes, failing, breaking off, reading one
thing after another, labelling failures, taking notes, and refusing elements that take no input. A
relation between readers that respects each of these parts holds between any two readers of records
whose nested readers it relates. So what holds of the parts is carried through fields, lists and
nested records here, once for all relations.
-/
namespace Savefile

namespace Expr

variable {e : Expr} {scope : Scope} {f : Fault}

/-- Evaluating an expression is a fault only if the expression was never set. -/
theorem fault_of_eval (h : e.eval scope = .error (.fault f)) : f = .unset ∧ e.meaning = none := by
  unfold eval at h
  split at h
  · rename_i hunset
    cases h
    exact ⟨rfl, hunset⟩
  · split at h <;> cases h

theorem fault_of_evalBool (h : e.evalBool scope = .error (.fault f)) :
    f = .unset ∧ e.meaning = none := by
  unfold evalBool at h
  cases heval : e.eval scope with
  | error stop =>
    rw [heval] at h
    cases h
    exact fault_of_eval heval
  | ok d =>
    rw [heval, Except.bind] at h
    split at h <;> cases h

theorem fault_of_evalCount (h : e.evalCount scope = .error (.fault f)) :
    f = .unset ∧ e.meaning = none := by
  unfold evalCount at h
  cases heval : e.eval scope with
  | error stop =>
    rw [heval] at h
    cases h
    exact fault_of_eval heval
  | ok d =>
    rw [heval, Except.bind] at h
    unfold countOf at h
    split at h
    · split at h <;> cases h
    · split at h <;> cases h
    · cases h

end Expr

/-- What a reader makes of a source. -/
abbrev Reader (α : Type) := Source → Decoding α

namespace Reader

variable {α β : Type}

/-- Takes `n` bytes and makes a value of them. -/
def taking (n : Nat) (make : List UInt8 → α) : Reader α := fun s =>
  match s.take n with
  | .ok (bytes, s') => .done (make bytes) s'
  | .error cause => s.fail .truncated s.position cause

/-- Fails where it stands. -/
def failing (kind : DecodeErrorKind) (cause : Cause) : Reader α := fun s =>
  s.fail kind s.position cause

/-- Breaks off where it stands. -/
def faulting (f : Fault) : Reader α := fun s => .failed (.fault f) s

/-- Reads on with what was read. -/
def andThen (p : Reader α) (q : α → Reader β) : Reader β := fun s =>
  match p s with
  | .failed e s' => .failed e s'
  | .done v s' => q v s'

/-- Labels failures. -/
def labelled (label : DecodeError → DecodeError) (p : Reader α) : Reader α := fun s =>
  match p s with
  | .failed e s' => .failed (e.map label) s'
  | .done v s' => .done v s'

/-- Takes a note of what was read, and from where. -/
def noted (note : Int → α → Note) (p : Reader α) : Reader α := fun s =>
  match p s with
  | .failed e s' => .failed e s'
  | .done v s' => .done v (s'.note (note s.position v))

/-- Fails after what took no input, if some is `required`. -/
def consuming (required : Prop) [Decidable required] (cause : Cause) (p : Reader α) : Reader α :=
  fun s =>
    match p s with
    | .failed e s' => .failed e s'
    | .done v s' =>
      if required ∧ s'.position = s.position then s'.fail .expression s.position cause
      else .done v s'

/-- A label that leaves the kind, the offset and the cause of an error alone. -/
structure IsLabel (label : DecodeError → DecodeError) : Prop where
  kind : ∀ e, (label e).kind = e.kind
  offset : ∀ e, (label e).offset = e.offset
  cause : ∀ e, (label e).cause = e.cause

theorem isLabel_inElement (i : Nat) : IsLabel (.inElement i) :=
  ⟨fun _ => rfl, fun _ => rfl, fun _ => rfl⟩

theorem isLabel_inField (type id : String) : IsLabel (.inField type id) :=
  ⟨fun _ => rfl, fun _ => rfl, fun _ => rfl⟩

/-- A property of families of readers that respects the parts that readers of fields are made of. -/
structure FieldLaw {ι : Type} (P : ∀ {α : Type}, (ι → Reader α) → Prop) : Prop where
  done : ∀ {α : Type} (v : α), P fun _ s => .done v s
  taking : ∀ {α : Type} (n : Nat) (make : List UInt8 → α), P fun _ => taking n make
  failing : ∀ {α : Type} (kind : DecodeErrorKind) (cause : Cause),
    P fun _ => (failing kind cause : Reader α)
  faulting : ∀ {α : Type} {f : Fault}, f ≠ .tooDeep → P fun _ => (faulting f : Reader α)
  andThen : ∀ {α β : Type} {p : ι → Reader α} {q : ι → α → Reader β},
    P p → (∀ v, P fun i => q i v) → P fun i => (p i).andThen (q i)
  labelled : ∀ {α : Type} {label : DecodeError → DecodeError} {p : ι → Reader α},
    IsLabel label → P p → P fun i => (p i).labelled label
  noted : ∀ {α : Type} (note : Int → α → Note) {p : ι → Reader α},
    P p → P fun i => (p i).noted note
  consuming : ∀ {α : Type} (required : Prop) [Decidable required] (cause : Cause)
    {p : ι → Reader α}, P p → P fun i => (p i).consuming required cause

/-- A relation between readers that respects the parts readers are made of. -/
structure Law (rel : ∀ {α : Type}, Reader α → Reader α → Prop) : Prop where
  done : ∀ {α : Type} (v : α), rel (fun s => .done v s) (fun s => .done v s)
  taking : ∀ {α : Type} (n : Nat) (make : List UInt8 → α), rel (taking n make) (taking n make)
  failing : ∀ {α : Type} (kind : DecodeErrorKind) (cause : Cause),
    rel (failing kind cause : Reader α) (failing kind cause)
  faulting : ∀ {α : Type} {f : Fault}, f ≠ .tooDeep → rel (faulting f : Reader α) (faulting f)
  andThen : ∀ {α β : Type} {p p' : Reader α} {q q' : α → Reader β},
    rel p p' → (∀ v, rel (q v) (q' v)) → rel (p.andThen q) (p'.andThen q')
  labelled : ∀ {α : Type} {label : DecodeError → DecodeError} {p p' : Reader α},
    IsLabel label → rel p p' → rel (p.labelled label) (p'.labelled label)
  noted : ∀ {α : Type} (note : Int → α → Note) {p p' : Reader α},
    rel p p' → rel (p.noted note) (p'.noted note)
  consuming : ∀ {α : Type} (required : Prop) [Decidable required] (cause : Cause)
    {p p' : Reader α}, rel p p' → rel (p.consuming required cause) (p'.consuming required cause)

end Reader

namespace Codec

open Reader

theorem readScalar_primitive (c : Codec) (p : Primitive) :
    c.readScalar (.primitive p) =
      taking p.width fun bytes => .scalar (.decode c.schema.order p bytes) := rfl

theorem skipAbsent_true (c : Codec) (t : TypeRef) :
    c.skipAbsent t true = taking (c.keptWidth t) fun _ => .null := by
  funext s
  unfold skipAbsent taking
  exact if_pos rfl

theorem readElements_succ (read : Reader Value) (r : Repetition) (count left : Nat)
    (items : List Value) :
    readElements read r count (left + 1) items =
      andThen
        (consuming (emptyElementLimit < count) (.emptyElement r.kind r.expr.source count)
          (labelled (.inElement (count - (left + 1))) read))
        fun v => readElements read r count left (v :: items) := by
  funext s
  simp only [readElements, andThen, consuming, labelled]
  cases read s with
  | failed e s' => rfl
  | done v s' =>
    dsimp only
    split <;> rfl

theorem readFields_cons (c : Codec) (nested : NestedDecoder) (t : RecordType) (f : Field)
    (fs : List Field) (slots : List Value) (fr : Frame) :
    c.readFields nested t (f :: fs) slots fr =
      andThen
        (noted (fun start v => .decodedField t.name f.id start (!v.isNull))
          (labelled (.inField t.name f.id)
            (c.readField nested f (fr.before (c.sharesAfter? t.name) t slots))))
        fun v => c.readFields nested t fs (v :: slots)
          ((fr.before (c.sharesAfter? t.name) t slots).bind f.id v) := by
  funext s
  simp only [readFields, andThen, noted, labelled]
  cases c.readField nested f (fr.before (c.sharesAfter? t.name) t slots) s <;> rfl

theorem map_eq_andThen {α β : Type} (g : α → β) (p : Reader α) :
    (fun s => (p s).map g) = p.andThen fun v s => .done (g v) s := by
  funext s
  rw [andThen]
  cases p s <;> rfl

theorem decodeRecord_succ (c : Codec) (depth : Nat) {name : String} {t : RecordType}
    (ht : c.type? name = some t) (context : Option Context) :
    c.decodeRecord (depth + 1) name context =
      andThen
        (c.readFields (c.decodeRecord depth) t t.fields []
          (.start (if c.isRoot name then none else context)))
        fun slots s => .done ⟨t, slots⟩ s := by
  rw [← map_eq_andThen]
  funext s
  rw [decodeRecord, ht]

end Codec

namespace Reader

variable (c : Codec)

namespace FieldLaw

variable {ι : Type} {P : ∀ {α : Type}, (ι → Reader α) → Prop} (law : FieldLaw P)
variable {nested : ι → NestedDecoder}

include law

theorem map {α β : Type} (g : α → β) {p : ι → Reader α} (h : P p) :
    P fun i s => (p i s).map g := by
  have he : (fun i s => (p i s).map g) = fun i => (p i).andThen fun v s => .done (g v) s :=
    funext fun i => Codec.map_eq_andThen g (p i)
  rw [he]
  exact law.andThen h fun v => law.done (g v)

theorem readScalar (kind : TypeKind) : P fun _ => c.readScalar kind := by
  cases kind with
  | primitive p =>
    rw [Codec.readScalar_primitive]
    exact law.taking _ _
  | composite => exact law.failing .truncated _
  | unassigned code => exact law.failing .truncated _

theorem skipAbsent (t : TypeRef) (advance : Bool) : P fun _ => c.skipAbsent t advance := by
  cases advance with
  | false => exact law.done Value.null
  | true =>
    rw [Codec.skipAbsent_true]
    exact law.taking _ _

theorem readBase (t : TypeRef) (context : Option Context)
    (h : t.kind.isComposite = true → P fun i => nested i t.name context) :
    P fun i => c.readBase (nested i) t context := by
  by_cases ht : t.kind.isComposite = true
  · have he : ∀ n : NestedDecoder,
        c.readBase n t context = fun s => (n t.name context s).map Record.toValue := by
      intro n
      funext s
      rw [Codec.readBase, if_pos ht]
    simp only [he]
    exact law.map _ (h ht)
  · have he : ∀ n : NestedDecoder, c.readBase n t context = c.readScalar t.kind := by
      intro n
      funext s
      rw [Codec.readBase, if_neg ht]
    simp only [he]
    exact law.readScalar c t.kind

/-- An expression that has no value of the wanted kind. -/
theorem unevaluated {α : Type} (stop : Stop ExprError) (h : stop ≠ .fault .tooDeep) :
    P fun _ => (fun s => s.unevaluated stop : Reader α) := by
  cases stop with
  | error e => exact law.failing .expression (.expression e)
  | fault f => exact law.faulting fun hf => h (congrArg Stop.fault hf)

theorem readElement (f : Field) (fr : Frame)
    (h : f.type.kind.isComposite = true → P fun i => nested i f.type.name fr.context) :
    P fun i => c.readElement (nested i) f fr := by
  unfold Codec.readElement
  cases f.condition with
  | none => exact law.readBase c f.type fr.context h
  | some cond =>
    dsimp only
    cases heval : cond.expr.evalBool fr.scope with
    | error stop =>
      apply law.unevaluated
      rintro rfl
      cases (Expr.fault_of_evalBool heval).1
    | ok b =>
      cases b with
      | true => exact law.readBase c f.type fr.context h
      | false => exact law.skipAbsent c f.type cond.advance

theorem readElements {read : ι → Reader Value} (h : P read) (r : Repetition)
    (count left : Nat) (items : List Value) :
    P fun i => Codec.readElements (read i) r count left items := by
  induction left generalizing items with
  | zero => exact law.done items.reverse
  | succ left ih =>
    simp only [Codec.readElements_succ]
    apply law.andThen
    · exact law.consuming _ _ (law.labelled (isLabel_inElement _) h)
    · intro v
      exact ih (v :: items)

theorem readField (nested : ι → NestedDecoder) (f : Field) (fr : Frame)
    (h : f.type.kind.isComposite = true → P fun i => nested i f.type.name fr.context) :
    P fun i => c.readField (nested i) f fr := by
  have he := law.readElement c f fr h
  unfold Codec.readField
  cases f.repetition with
  | none => exact he
  | some r =>
    dsimp only
    cases heval : r.expr.evalCount fr.scope with
    | error stop =>
      apply law.unevaluated
      rintro rfl
      cases (Expr.fault_of_evalCount heval).1
    | ok count => exact law.map _ (law.readElements he r count count [])

/-- The contexts that nested readers may be given are those that `visible` admits: the frame's own,
and any other if the record shares its leading fields. -/
theorem readFields (nested : ι → NestedDecoder) (t : RecordType) (fields : List Field)
    (visible : Option Context → Prop)
    (hshare : ∀ k, c.sharesAfter? t.name = some k → ∀ context, visible context)
    (h : ∀ f ∈ fields, f.type.kind.isComposite = true →
      ∀ context, visible context → P fun i => nested i f.type.name context)
    (slots : List Value) (fr : Frame) (hfr : visible fr.context) :
    P fun i => c.readFields (nested i) t fields slots fr := by
  induction fields generalizing slots fr with
  | nil => exact law.done slots.reverse
  | cons f fs ih =>
    have hbefore : visible (fr.before (c.sharesAfter? t.name) t slots).context := by
      unfold Frame.before
      split
      · rename_i hk
        exact hshare _ hk _
      · exact hfr
    simp only [Codec.readFields_cons]
    apply law.andThen
    · apply law.noted
      apply law.labelled (isLabel_inField _ _)
      exact law.readField c nested f _ fun hf => h f (List.mem_cons_self ..) hf _ hbefore
    · intro v
      exact ih (fun g hg => h g (List.mem_cons_of_mem _ hg)) _ _ hbefore

end FieldLaw

namespace Law

variable {rel : ∀ {α : Type}, Reader α → Reader α → Prop} (law : Law rel)

include law

/-- A relation is a property of the families of two readers. -/
theorem fieldLaw : FieldLaw fun {α} (p : Bool → Reader α) => rel (p false) (p true) where
  done := law.done
  taking := law.taking
  failing := law.failing
  faulting := law.faulting
  andThen := law.andThen
  labelled := law.labelled
  noted note _ h := law.noted note h
  consuming required _ cause _ h := law.consuming required cause h

/-- One more level of records: what relates the readers of nested records relates those of the
records around them. Only the root gives nested records another context than its own. -/
theorem decodeRecord_succ {d₁ d₂ : Nat} (name : String) (context : Option Context)
    (h : ∀ t, c.type? name = some t → ∀ f ∈ t.fields, f.type.kind.isComposite = true →
      ∀ context', (c.isRoot name = false → context' = context) →
        rel (c.decodeRecord d₁ f.type.name context') (c.decodeRecord d₂ f.type.name context')) :
    rel (c.decodeRecord (d₁ + 1) name context) (c.decodeRecord (d₂ + 1) name context) := by
  cases ht : c.type? name with
  | none =>
    have he : ∀ d, c.decodeRecord (d + 1) name context = Reader.faulting (.undeclared name) := by
      intro d
      funext s
      rw [Codec.decodeRecord, ht]
      rfl
    rw [he, he]
    exact law.faulting (by simp)
  | some t =>
    rw [Codec.decodeRecord_succ c d₁ ht, Codec.decodeRecord_succ c d₂ ht]
    apply law.andThen
    · apply law.fieldLaw.readFields c (fun second => c.decodeRecord (cond second d₂ d₁)) t t.fields
        (fun context' => c.isRoot name = false → context' = context)
      · intro k hk context' hroot
        rw [Codec.type?_name ht, Codec.sharesAfter?, hroot] at hk
        cases hk
      · exact h t ht
      · intro hroot
        rw [hroot]
        rfl
    · intro slots
      exact law.done _

/-- What holds of the parts of readers holds of the reader of a record. -/
theorem decodeRecord
    (tooDeep : rel (Reader.faulting .tooDeep : Reader Record) (Reader.faulting .tooDeep))
    (depth : Nat) (name : String) (context : Option Context) :
    rel (c.decodeRecord depth name context) (c.decodeRecord depth name context) := by
  induction depth generalizing name context with
  | zero => exact tooDeep
  | succ depth ih =>
    exact law.decodeRecord_succ c name context fun _ _ f _ _ context' _ => ih f.type.name context'

end Law

end Reader

end Savefile
