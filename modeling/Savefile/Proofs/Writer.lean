import Savefile.Proofs.Width

/-!
# Writers and their laws

Writing a record is put together from few parts: giving the chunk of a scalar or zeros to the sink,
refusing a value, writing one thing after another, labelling failures, taking notes, and objecting to
the length of a list. A
property that respects each of these parts holds of the writer of every value. It may speak of a whole
family of writers, with other byte orders, other options or other sinks, and of the spot where a value
stands: its field, what the count of its list sees, and the value itself.
-/
namespace Savefile

/-- What a writer makes of an output. -/
abbrev Writer := Output → Encoding

/-- The bytes that a pass wrote, or what stopped it. -/
def Encoding.written : Encoding → Except EncodeStop (List UInt8)
  | .done _ out => .ok out.bytes
  | .failed stop _ => .error stop

/-- Writes on after a pass; if it failed, its error is labelled. -/
def Encoding.andThen (label : EncodeError → EncodeError) (q : Writer) : Encoding → Encoding
  | .done _ out => q out
  | .failed stop out => .failed (stop.map label) out

/-- The pass did not fail with an error whose cause wraps an error of reading. -/
def Encoding.Plain (pass : Encoding) : Prop :=
  ∀ e out, pass = .failed (.error e) out → e.cause.wrapsReading = false

theorem Encoding.Plain.writeAll {sink : Sink}
    (hsink : ∀ refusal, sink.Gives refusal → refusal.wrapsReading = false) (scalar : Bool)
    (chunks : List (List UInt8)) (out : Output) :
    Plain ((out.writeAll sink chunks).toEncoding scalar) := by
  intro e out' h
  cases hwrite : out.writeAll sink chunks with
  | done _ out₁ =>
    rw [hwrite] at h
    cases h
  | failed cause out₁ =>
    rw [hwrite] at h
    cases h
    rcases Output.writeAll_failed hwrite with rfl | ⟨refusal, hgives, rfl⟩
    · rfl
    · exact hsink refusal hgives

theorem Encoding.Plain.andThen {step : PathStep} {label : EncodeError → EncodeError}
    (hlabel : EncodeError.IsLabel step label) {q : Writer} {pass : Encoding} (h : pass.Plain)
    (hq : ∀ out, (q out).Plain) : (Encoding.andThen label q pass).Plain := by
  cases pass with
  | done _ out => exact hq out
  | failed stop out =>
    intro e out' he
    cases stop with
    | fault f => cases he
    | error inner =>
      cases he
      rw [hlabel.cause]
      exact h inner out rfl

/-- The spot at which a value is written. -/
structure Spot where
  field : Field
  /-- How the list of the field is repeated, if that is what is written. -/
  repeated : Option Repetition
  frame : Frame
  value : Value

namespace Spot

/-- A record on its own stands where a field would always hold it. -/
def ofRecord (name : String) (context : Option Context) (r : Record) : Spot :=
  ⟨⟨"", ⟨name, .composite⟩, none, none⟩, none, ⟨[], context⟩, r.toValue⟩

/-- The spot of an element of the list. -/
def element (spot : Spot) (v : Value) : Spot := { spot with repeated := none, value := v }

end Spot

namespace Writer

/-- Writes one thing and then another; a failure of the first is labelled. -/
def andThen (label : EncodeError → EncodeError) (p q : Writer) : Writer := fun out =>
  Encoding.andThen label q (p out)

/-- Writes a list, unless the codec has something against its length. -/
def counted (c : Codec) (r : Repetition) (scope : Scope) (length : Nat) (p : Writer) : Writer :=
  fun out =>
    match c.countStop? r scope length with
    | some stop => .failed stop out
    | none => p out

end Writer

namespace Codec

/-- Among the fields that are left of a record, with the values before them, there is the field with
its value and what its expressions see. -/
inductive ComesToSlot (c : Codec) (t own : RecordType) :
    List Field → List Value → Frame → List Value → Field → Frame → Value → Prop
  | here (f : Field) (fs : List Field) (before : List Value) (fr : Frame) (v : Value)
      (vs : List Value) :
      ComesToSlot c t own (f :: fs) before fr (v :: vs) f
        (fr.before (c.sharesAfter? t.name) own before) v
  | later {f g : Field} {fs : List Field} {before : List Value} {fr fr' : Frame} {v w : Value}
      {vs : List Value} :
      ComesToSlot c t own fs (v :: before)
        ((fr.before (c.sharesAfter? t.name) own before).bind f.id v) vs g fr' w →
      ComesToSlot c t own (f :: fs) before fr (v :: vs) g fr' w

theorem ComesToSlot.mem {c : Codec} {t own : RecordType} {fields : List Field}
    {before vs : List Value} {fr fr' : Frame} {g : Field} {v : Value}
    (h : ComesToSlot c t own fields before fr vs g fr' v) : g ∈ fields := by
  induction h with
  | here => exact List.mem_cons_self ..
  | later _ ih => exact List.mem_cons_of_mem _ ih

/-- One step into a value: to an element of a list, or to a field of a record. -/
inductive Enters (c : Codec) : Spot → PathStep → Spot → Prop
  | element {spot : Spot} {r : Repetition} {items : List Value} {i : Nat} {v : Value} :
      spot.repeated = some r → spot.value = .list items → items[i]? = some v →
      Enters c spot (.index i) (spot.element v)
  | slot {spot : Spot} {t own : RecordType} {slots : List Value} {g : Field} {fr : Frame}
      {v : Value} :
      spot.repeated = none → spot.field.type.kind.isComposite = true →
      spot.value = .record own slots → c.writable? spot.field.type.name own slots = some t →
      ComesToSlot c t own t.fields []
        (.start (if c.isRoot t.name then none else spot.frame.context)) slots g fr v →
      Enters c spot (.field g.id) ⟨g, g.repetition, fr, v⟩

/-- The second spot is at the path inside the first. -/
inductive Within (c : Codec) : Spot → List PathStep → Spot → Prop
  | itself (spot : Spot) : Within c spot [] spot
  | inside {spot next last : Spot} {step : PathStep} {path : List PathStep} :
      c.Enters spot step next → Within c next path last → Within c spot (step :: path) last

/-- The list at a spot inside a record is the list of its field. -/
theorem Within.repetition {c : Codec} {spot last : Spot} {path : List PathStep}
    (h : c.Within spot path last)
    (hspot : ∀ r, spot.repeated = some r → spot.field.repetition = some r) :
    ∀ r, last.repeated = some r → last.field.repetition = some r := by
  induction h with
  | itself => exact hspot
  | inside henters _ ih =>
    apply ih
    cases henters with
    | element => simp [Spot.element]
    | slot => exact fun _ h => h

/-- The same codec under other options. -/
def under (c : Codec) (options : CodecOptions) : Codec := { c with options }

/-- The codec of the same schema in a byte order. -/
def inOrder (c : Codec) (order : ByteOrder) : Codec :=
  { c with schema := { c.schema with order } }

variable (c : Codec)

theorem keptWidth_inOrder (order : ByteOrder) (t : TypeRef) :
    (c.inOrder order).keptWidth t = c.keptWidth t := by
  have htypes : (c.inOrder order).schema.types = c.schema.types := rfl
  rw [keptWidth, keptWidth, Schema.fixedWidth_congr htypes]

/-- The bytes of a record do not depend on the note that is taken of it in the end. -/
theorem encode_eq_written (r : Option Record) :
    c.encode r =
      Encoding.written (c.encodeRecord .memory c.schema.root.name none r .empty) := by
  unfold encode encodeTo encodeType
  cases c.encodeRecord .memory c.schema.root.name none r .empty <;> rfl

/-- What writing a single value that is no record comes down to: the chunk of a scalar, zeros, or a
refusal. -/
theorem writeSingle_cases (f : Field) (v : Value) :
    (∃ x : Scalar, ∀ order sink, (c.inOrder order).writeSingle sink f v =
      fun out => (out.write sink (x.encode order)).toEncoding true) ∨
    (∃ n, ∀ order sink, (c.inOrder order).writeSingle sink f v =
      fun out => (out.writeAll sink (zeroChunks n)).toEncoding false) ∨
    ∃ e, e.kind = .invalid ∧ e.cause.wrapsReading = false ∧ ∀ order sink,
      (c.inOrder order).writeSingle sink f v = fun out => .failed (.error e) out := by
  by_cases habsent : ∃ cond, f.condition = some cond ∧ v = .null
  · obtain ⟨cond, hc, rfl⟩ := habsent
    cases ha : cond.advance with
    | true =>
      refine .inr (.inl ⟨c.keptWidth f.type, fun order sink => funext fun out => ?_⟩)
      simp only [writeSingle, hc, ha, if_true, keptWidth_inOrder]
    | false =>
      refine .inr (.inl ⟨0, fun order sink => funext fun out => ?_⟩)
      simp only [writeSingle, hc, ha]
      rfl
  · have hpresent : ∀ order sink, (c.inOrder order).writeSingle sink f v = fun out =>
        if f.type.kind.isComposite then out.fail .invalid (.misfit (.notRecord v f.type.name))
        else (c.inOrder order).writeScalar sink f.type.kind v out := by
      intro order sink
      funext out
      unfold writeSingle
      split
      · rename_i cond hc
        exact absurd ⟨cond, hc, rfl⟩ habsent
      · rfl
    simp only [hpresent]
    by_cases hcomposite : f.type.kind.isComposite = true
    · simp only [if_pos hcomposite]
      exact .inr (.inr ⟨_, rfl, rfl, fun _ _ => rfl⟩)
    · simp only [if_neg hcomposite]
      cases v with
      | scalar x =>
        simp only [writeScalar, deliver]
        by_cases hkind : f.type.kind = .primitive x.kind
        · simp only [if_pos hkind]
          exact .inl ⟨x, fun _ _ => rfl⟩
        · simp only [if_neg hkind]
          exact .inr (.inr ⟨_, rfl, rfl, fun _ _ => rfl⟩)
      | null => exact .inr (.inr ⟨_, rfl, rfl, fun _ _ => rfl⟩)
      | list items => exact .inr (.inr ⟨_, rfl, rfl, fun _ _ => rfl⟩)
      | record u slots => exact .inr (.inr ⟨_, rfl, rfl, fun _ _ => rfl⟩)
      | foreign _ _ => exact .inr (.inr ⟨_, rfl, rfl, fun _ _ => rfl⟩)

open Writer

theorem wrapsReading_of_countStop? {c : Codec} {r : Repetition} {scope : Scope} {length : Nat}
    {e : EncodeError} (h : c.countStop? r scope length = some (.error e)) :
    e.cause.wrapsReading = false := by
  unfold countStop? at h
  split at h
  · cases h
  · split at h
    · rename_i why _
      cases why <;> cases h
      rfl
    · split at h <;> cases h
      rfl

theorem writeValue_list (sink : Sink) (f : Field) (r : Repetition) (fr : Frame)
    (items : List Value) :
    c.writeValue sink f (some r) fr (.list items) =
      counted c r fr.scope items.length (c.writeItems sink f fr 0 items) := by
  funext out
  rw [writeValue]
  rfl

theorem writeValue_record (sink : Sink) {f : Field} (hf : f.type.kind.isComposite = true)
    {u t : RecordType} {slots : List Value} (ht : c.writable? f.type.name u slots = some t)
    (fr : Frame) :
    c.writeValue sink f none fr (.record u slots) =
      c.writeSlots sink t u t.fields [] (.start (if c.isRoot t.name then none else fr.context))
        slots := by
  funext out
  rw [writeValue]
  simp only [hf, if_true, ht]

theorem writeItems_cons (sink : Sink) (f : Field) (fr : Frame) (i : Nat) (v : Value)
    (vs : List Value) :
    c.writeItems sink f fr i (v :: vs) =
      andThen (.inElement i) (c.writeValue sink f none fr v)
        (c.writeItems sink f fr (i + 1) vs) := by
  funext out
  rw [writeItems, andThen]
  cases c.writeValue sink f none fr v out <;> rfl

theorem writeSlots_cons (sink : Sink) (t own : RecordType) (f : Field) (fs : List Field)
    (before : List Value) (fr : Frame) (v : Value) (vs : List Value) :
    c.writeSlots sink t own (f :: fs) before fr (v :: vs) =
      andThen (.inField t.name f.id)
        (c.writeValue sink f f.repetition (fr.before (c.sharesAfter? t.name) own before) v)
        fun out => c.writeSlots sink t own fs (v :: before)
          ((fr.before (c.sharesAfter? t.name) own before).bind f.id v) vs
          (out.note (.encodedField t.name f.id out.count)) := by
  funext out
  rw [writeSlots, andThen]
  cases c.writeValue sink f f.repetition (fr.before (c.sharesAfter? t.name) own before) v out <;> rfl

end Codec

namespace Writer

/-- A property of families of writers, each at a spot, that respects the parts writers are made
of. -/
structure Law {ι : Type} (c : Codec) (order : ι → ByteOrder) (options : ι → CodecOptions)
    (sink : ι → Sink) (P : Spot → (ι → Writer) → Prop) : Prop where
  scalar : ∀ (spot : Spot) (x : Scalar),
    P spot fun i out => (out.write (sink i) (x.encode (order i))).toEncoding true
  room : ∀ (spot : Spot) (n : Nat),
    P spot fun i out => (out.writeAll (sink i) (zeroChunks n)).toEncoding false
  refusing : ∀ (spot : Spot) {e : EncodeError}, e.kind = .invalid → e.cause.wrapsReading = false →
    P spot fun _ out => .failed (.error e) out
  noted : ∀ {spot : Spot} (note : Nat → Note) {p : ι → Writer},
    P spot p → P spot fun i out => p i (out.note (note out.count))
  counted : ∀ {spot : Spot} {r : Repetition} {items : List Value} {p : ι → Writer},
    spot.repeated = some r → spot.value = .list items → P spot p →
    P spot fun i => counted (c.under (options i)) r spot.frame.scope items.length (p i)
  inside : ∀ {spot next : Spot} {step : PathStep} {label : EncodeError → EncodeError}
    {p q : ι → Writer}, c.Enters spot step next → EncodeError.IsLabel step label → P next p →
    P spot q → P spot fun i => andThen label (p i) (q i)

namespace Law

open Codec

variable {ι : Type} {c : Codec} {order : ι → ByteOrder} {options : ι → CodecOptions}
variable {sink : ι → Sink} {P : Spot → (ι → Writer) → Prop} (law : Law c order options sink P)

include law

theorem done (spot : Spot) : P spot fun _ out => .done () out :=
  law.room spot 0

theorem writeSingle (spot : Spot) (f : Field) (v : Value) :
    P spot fun i => ((c.inOrder (order i)).under (options i)).writeSingle (sink i) f v := by
  have hsame : ∀ i, ((c.inOrder (order i)).under (options i)).writeSingle (sink i) f v =
      (c.inOrder (order i)).writeSingle (sink i) f v := fun _ => rfl
  simp only [hsame]
  rcases c.writeSingle_cases f v with
    ⟨x, hwrites⟩ | ⟨n, hwrites⟩ | ⟨e, hkind, hplain, hrefuses⟩
  · simp only [hwrites]
    exact law.scalar spot x
  · simp only [hwrites]
    exact law.room spot n
  · simp only [hrefuses]
    exact law.refusing spot hkind hplain

mutual

/-- The law holds of the writer of any value. -/
theorem writeValue : ∀ (v : Value) (f : Field) (repeated : Option Repetition) (fr : Frame),
    P ⟨f, repeated, fr, v⟩ fun i =>
      ((c.inOrder (order i)).under (options i)).writeValue (sink i) f repeated fr v
  | .list items, f, some r, fr => by
    simp only [writeValue_list]
    apply law.counted rfl rfl
    exact writeItems items 0 f r fr items fun j v hj => by rwa [Nat.zero_add]
  | .list items, f, none, fr => by
    simp only [Codec.writeValue]
    exact law.writeSingle _ f _
  | .record u slots, f, some r, fr => by
    simp only [Codec.writeValue]
    exact law.refusing _ rfl rfl
  | .record u slots, f, none, fr => by
    by_cases hf : f.type.kind.isComposite = true
    · cases ht : c.writable? f.type.name u slots with
      | none =>
        have hnone : ∀ i, ((c.inOrder (order i)).under (options i)).writable? f.type.name u slots =
            none := fun _ => ht
        simp only [Codec.writeValue, hf, if_true, hnone]
        exact law.refusing _ rfl rfl
      | some t =>
        have hsome : ∀ i, ((c.inOrder (order i)).under (options i)).writable? f.type.name u slots =
            some t := fun _ => ht
        simp only [fun i => writeValue_record ((c.inOrder (order i)).under (options i)) (sink i) hf
          (hsome i) fr]
        exact writeSlots slots ⟨f, none, fr, .record u slots⟩ t u t.fields [] _
          fun g fr' w hcomes => .slot rfl hf rfl ht hcomes
    · simp only [Codec.writeValue, hf]
      exact law.writeSingle _ f _
  | .null, f, some r, fr => by
    simp only [Codec.writeValue]
    exact law.refusing _ rfl rfl
  | .null, f, none, fr => by
    simp only [Codec.writeValue]
    exact law.writeSingle _ f _
  | .scalar _, f, some r, fr => by
    simp only [Codec.writeValue]
    exact law.refusing _ rfl rfl
  | .scalar _, f, none, fr => by
    simp only [Codec.writeValue]
    exact law.writeSingle _ f _
  | .foreign _ _, f, some r, fr => by
    simp only [Codec.writeValue]
    exact law.refusing _ rfl rfl
  | .foreign _ _, f, none, fr => by
    simp only [Codec.writeValue]
    exact law.writeSingle _ f _

/-- The elements `vs` are the last ones of the list, from the index on. -/
theorem writeItems : ∀ (vs : List Value) (i : Nat) (f : Field) (r : Repetition) (fr : Frame)
    (items : List Value), (∀ j v, vs[j]? = some v → items[i + j]? = some v) →
    P ⟨f, some r, fr, .list items⟩ fun k =>
      ((c.inOrder (order k)).under (options k)).writeItems (sink k) f fr i vs
  | [], i, f, r, fr, items, _ => by
    simp only [Codec.writeItems]
    exact law.done _
  | v :: vs, i, f, r, fr, items, hitems => by
    simp only [writeItems_cons]
    apply law.inside (.element rfl rfl (hitems 0 v rfl)) (EncodeError.isLabel_inElement i)
    · exact writeValue v f none fr
    · apply writeItems vs (i + 1) f r fr items
      intro j w hj
      have hnext := hitems (j + 1) w hj
      rwa [Nat.add_assoc, Nat.add_comm 1 j]

/-- The values `vs` are the last ones of the record, and stand in the fields that are left. -/
theorem writeSlots : ∀ (vs : List Value) (spot : Spot) (t own : RecordType) (fields : List Field)
    (before : List Value) (fr : Frame),
    (∀ g fr' w, ComesToSlot c t own fields before fr vs g fr' w →
      c.Enters spot (.field g.id) ⟨g, g.repetition, fr', w⟩) →
    P spot fun i =>
      ((c.inOrder (order i)).under (options i)).writeSlots (sink i) t own fields before fr vs
  | [], spot, t, own, fields, before, fr, _ => by
    simp only [Codec.writeSlots]
    exact law.done _
  | v :: vs, spot, t, own, [], before, fr, _ => by
    simp only [Codec.writeSlots]
    exact law.done _
  | v :: vs, spot, t, own, f :: fs, before, fr, henters => by
    have hshares : ∀ i, ((c.inOrder (order i)).under (options i)).sharesAfter? t.name =
        c.sharesAfter? t.name := fun _ => rfl
    simp only [writeSlots_cons, hshares]
    apply law.inside (henters _ _ _ (.here f fs before fr v vs)) (EncodeError.isLabel_inField t.name f.id)
    · exact writeValue v f f.repetition _
    · apply law.noted (.encodedField t.name f.id)
      exact writeSlots vs spot t own fs (v :: before) _
        fun g fr' w hcomes => henters g fr' w (.later hcomes)

end

/-- The law holds of the writer of any record. -/
theorem encodeRecord (name : String) (context : Option Context) (r : Record) :
    P (.ofRecord name context r) fun i =>
      ((c.inOrder (order i)).under (options i)).encodeRecord (sink i) name context (some r) := by
  have hvalue : ∀ i, ((c.inOrder (order i)).under (options i)).encodeRecord (sink i) name context
        (some r) =
      ((c.inOrder (order i)).under (options i)).writeValue (sink i)
        ⟨"", ⟨name, .composite⟩, none, none⟩ none ⟨[], context⟩ r.toValue := by
    intro i
    funext out
    exact encodeRecord_eq_writeValue (t := ⟨name, .composite⟩) _ _ rfl context r out
  simp only [hvalue]
  exact law.writeValue r.toValue _ none _

end Law

/-- If the errors that a sink gives wrap no error of reading, then neither do those of a writer. -/
theorem plain_law (c : Codec) (options : CodecOptions) {sink : Sink}
    (hsink : ∀ refusal, sink.Gives refusal → refusal.wrapsReading = false) :
    Law c (fun _ : Unit => c.schema.order) (fun _ => options) (fun _ => sink) fun _ w =>
      ∀ out, (w () out).Plain where
  scalar _ x out := by
    simp only [Output.write_eq_writeAll]
    exact .writeAll hsink true _ out
  room _ n out := .writeAll hsink false _ out
  refusing _ _ _ hplain out e out' h := by
    cases h
    exact hplain
  noted _ _ hp out := hp _
  counted := by
    intro spot r items p _ _ hp out
    unfold counted
    cases hstop : (c.under options).countStop? r spot.frame.scope items.length with
    | none => exact hp out
    | some stop =>
      intro e out' h
      cases h
      exact Codec.wrapsReading_of_countStop? hstop
  inside _ hlabel hp hq out := Encoding.Plain.andThen hlabel (hp out) hq

end Writer

namespace Codec

variable {c : Codec}

theorem failed_of_written {pass : Encoding} {stop : EncodeStop} (h : pass.written = .error stop) :
    ∃ out, pass = .failed stop out := by
  cases pass with
  | done _ out => cases h
  | failed stop' out =>
    cases h
    exact ⟨out, rfl⟩

/-- The memory gives no errors. -/
theorem wrapsReading_of_memory {name : String} {context : Option Context} {r : Record}
    {out out' : Output} {e : EncodeError}
    (h : c.encodeRecord .memory name context (some r) out = .failed (.error e) out') :
    e.cause.wrapsReading = false := by
  have hmemory : ∀ refusal, Sink.memory.Gives refusal → refusal.wrapsReading = false := by
    rintro refusal ⟨out, chunk, hrefusal⟩
    cases hrefusal
  exact (Writer.plain_law c c.options hmemory).encodeRecord name context r out e out' h

end Codec

end Savefile
