import Savefile.Proofs.Reading
import Savefile.Proofs.Writing

/-!
# Types of a fixed width

The width of a type is found from the schema alone. Every value of the type takes up just this many
bytes, whatever is read or written: a field that may be absent counts only if it then keeps its room.
-/
namespace Savefile

/-- Whether a field takes up the same room in every record, given that its type has one width: it
is not repeated, and keeps its room if it may be absent. -/
structure Field.Steady (f : Field) : Prop where
  single : f.repetition = none
  advance : ∀ cond, f.condition = some cond → cond.advance = true

namespace Schema

variable {s : Schema} {t : TypeRef} {d w : Nat}

/-- Fields have a width if each of them is steady and its type has one. -/
theorem fieldsWidth_cons {width : TypeRef → Option Nat} {f : Field} {fs : List Field}
    (h : fieldsWidth width (f :: fs) = some w) :
    f.Steady ∧ ∃ w₁ w₂, width f.type = some w₁ ∧ fieldsWidth width fs = some w₂ ∧
      w = w₁ + w₂ := by
  unfold fieldsWidth at h
  split at h
  · cases h
  · rename_i hsteady
    rw [Bool.or_eq_true, not_or] at hsteady
    obtain ⟨hsingle, hadvance⟩ := hsteady
    split at h
    · rename_i w₁ w₂ h₁ h₂
      cases h
      refine ⟨⟨by simpa using hsingle, ?_⟩, w₁, w₂, h₁, h₂, rfl⟩
      intro cond hc
      simpa [hc] using hadvance
    · cases h

theorem fieldsWidth_imp {width width' : TypeRef → Option Nat}
    (himp : ∀ t w, width t = some w → width' t = some w) {fs : List Field}
    (h : fieldsWidth width fs = some w) : fieldsWidth width' fs = some w := by
  induction fs generalizing w with
  | nil => exact h
  | cons f fs ih =>
    obtain ⟨-, w₁, w₂, h₁, h₂, -⟩ := fieldsWidth_cons h
    unfold fieldsWidth at h ⊢
    simpa only [h₁, h₂, himp _ _ h₁, ih h₂] using h

theorem widthWithin_scalar (s : Schema) (d : Nat) (ht : t.kind.isComposite = false) :
    s.widthWithin d t = some t.kind.scalarWidth := by
  cases d <;> simp [widthWithin, ht]

/-- The width of a composite type is that of its fields, one level deeper. -/
theorem widthWithin_composite (ht : t.kind.isComposite = true) (h : s.widthWithin d t = some w) :
    ∃ d' r, d = d' + 1 ∧ s.declared? t.name = some r ∧
      fieldsWidth (s.widthWithin d') r.fields = some w := by
  cases d with
  | zero => simp [widthWithin, ht] at h
  | succ d' =>
    rw [widthWithin, if_pos ht] at h
    obtain ⟨r, hr, h⟩ := Option.bind_eq_some_iff.mp h
    exact ⟨d', r, rfl, hr, h⟩

/-- More levels do not change a width that was found. -/
theorem widthWithin_mono {d' : Nat} (hd : d ≤ d') (h : s.widthWithin d t = some w) :
    s.widthWithin d' t = some w := by
  induction d generalizing t w d' with
  | zero =>
    have ht : t.kind.isComposite = false := by
      cases ht : t.kind.isComposite with
      | false => rfl
      | true => simp [widthWithin, ht] at h
    rw [widthWithin_scalar s _ ht] at h ⊢
    exact h
  | succ d ih =>
    cases d' with
    | zero => omega
    | succ d' =>
      unfold widthWithin at h ⊢
      split at h
      · rename_i ht
        obtain ⟨r, hr, h⟩ := Option.bind_eq_some_iff.mp h
        rw [if_pos ht, hr]
        exact fieldsWidth_imp (fun t w => ih (by omega)) h
      · rename_i ht
        rw [if_neg ht]
        exact h

/-- The width that an absent value keeps is the one found at any level. -/
theorem fixedWidth_of_widthWithin (hd : d ≤ s.types.length) (h : s.widthWithin d t = some w) :
    s.fixedWidth t = some w := widthWithin_mono hd h

/-- Widths depend on the declared types only. -/
theorem widthWithin_congr {s' : Schema} (h : s'.types = s.types) (d : Nat) (t : TypeRef) :
    s'.widthWithin d t = s.widthWithin d t := by
  induction d generalizing t with
  | zero => rfl
  | succ d ih =>
    have hdeclared : s'.declared? t.name = s.declared? t.name := by rw [declared?, h, declared?]
    rw [widthWithin, widthWithin, hdeclared, funext ih]

theorem fixedWidth_congr {s' : Schema} (h : s'.types = s.types) (t : TypeRef) :
    s'.fixedWidth t = s.fixedWidth t := by
  rw [fixedWidth, fixedWidth, h, widthWithin_congr h]

end Schema

theorem Source.Past.rest_eq_drop {s s' : Source} {b : List UInt8} (h : s.Past s' b) :
    s'.rest = s.rest.drop b.length := by
  rw [h.rest, List.drop_left]

theorem Pass.eq_done_of_result {σ ε α : Type} {p : Pass σ ε α} {a : α} (h : p.result = .ok a) :
    p = .done a p.state := by
  cases p with
  | done b s =>
    cases h
    rfl
  | failed e s => cases h

theorem Pass.eq_failed_of_result {σ ε α : Type} {p : Pass σ ε α} {e : ε}
    (h : p.result = .error e) : p = .failed e p.state := by
  cases p with
  | done b s => cases h
  | failed e' s =>
    cases h
    rfl

namespace Reader

variable {α β : Type} {w w' : Nat}

/-- Whatever comes out of the reader was read from `w` bytes. -/
def Exactly (w : Nat) (p : Reader α) : Prop :=
  ∀ s v s', p s = .done v s' → ∃ b, s.Past s' b ∧ b.length = w

theorem exactly_done (v : α) : Exactly 0 (fun s => .done v s) := by
  intro s v' s' h
  cases h
  exact ⟨[], .refl s, rfl⟩

theorem exactly_failing (w : Nat) (kind : DecodeErrorKind) (cause : Cause) :
    Exactly w (failing kind cause : Reader α) := by
  intro s v s' h
  cases h

theorem exactly_taking (w : Nat) (make : List UInt8 → α) : Exactly w (taking w make) := by
  intro s v s' h
  obtain ⟨b, hb, -, hpast⟩ := taking_done h
  exact ⟨b, hpast, hb⟩

theorem Exactly.andThen {p : Reader α} {q : α → Reader β} (hp : Exactly w p)
    (hq : ∀ v, Exactly w' (q v)) : Exactly (w + w') (p.andThen q) := by
  intro s v s' h
  unfold Reader.andThen at h
  cases hv : p s with
  | failed e s₁ => simp [hv] at h
  | done v₁ s₁ =>
    simp only [hv] at h
    obtain ⟨b, hb, hw⟩ := hp s v₁ s₁ hv
    obtain ⟨b', hb', hw'⟩ := hq v₁ s₁ v s' h
    exact ⟨b ++ b', hb.trans hb', by rw [List.length_append, hw, hw']⟩

theorem Exactly.map {p : Reader α} (hp : Exactly w p) (g : α → β) :
    Exactly w (p.andThen fun v s => .done (g v) s) :=
  hp.andThen fun v => exactly_done (g v)

theorem Exactly.labelled {p : Reader α} (hp : Exactly w p) (label : DecodeError → DecodeError) :
    Exactly w (p.labelled label) := by
  intro s v s' h
  unfold Reader.labelled at h
  cases hv : p s with
  | failed e s₁ => simp [hv] at h
  | done v₁ s₁ =>
    simp only [hv, Pass.done.injEq] at h
    obtain ⟨rfl, rfl⟩ := h
    exact hp s v₁ s₁ hv

theorem Exactly.noted {p : Reader α} (hp : Exactly w p) (note : Int → α → Note) :
    Exactly w (p.noted note) := by
  intro s v s' h
  unfold Reader.noted at h
  cases hv : p s with
  | failed e s₁ => simp [hv] at h
  | done v₁ s₁ =>
    simp only [hv, Pass.done.injEq] at h
    obtain ⟨rfl, rfl⟩ := h
    obtain ⟨b, hb, hw⟩ := hp s v₁ s₁ hv
    exact ⟨b, hb.note _, hw⟩

end Reader

namespace Codec

open Reader

variable {c : Codec} {t : TypeRef} {d w : Nat}

theorem keptWidth_of_widthWithin (hd : d ≤ c.schema.types.length)
    (h : c.schema.widthWithin d t = some w) : c.keptWidth t = w := by
  rw [keptWidth, Schema.fixedWidth_of_widthWithin hd h]
  rfl

/-- A steady field is read from the width of its type, present or not. -/
theorem exactly_readField {nested : NestedDecoder} {f : Field} (hf : f.Steady) (fr : Frame)
    (hkept : c.keptWidth f.type = w) (hbase : Exactly w (c.readBase nested f.type fr.context)) :
    Exactly w (c.readField nested f fr) := by
  have hfield : c.readField nested f fr = c.readElement nested f fr := by
    funext s
    simp only [readField, hf.single]
  rw [hfield]
  cases hc : f.condition with
  | none =>
    have he : c.readElement nested f fr = c.readBase nested f.type fr.context := by
      funext s
      simp only [readElement, hc]
    rwa [he]
  | some cond =>
    have hadvance := hf.advance cond hc
    intro s v s' h
    simp only [readElement, hc] at h
    cases he : cond.expr.evalBool fr.scope with
    | error e =>
      simp only [he] at h
      cases h
    | ok b =>
      cases b with
      | true =>
        simp only [he] at h
        exact hbase s v s' h
      | false =>
        simp only [he, hadvance, skipAbsent_true, hkept] at h
        exact exactly_taking w _ s v s' h

theorem exactly_readFields {nested : NestedDecoder} (hd : d ≤ c.schema.types.length)
    (hnested : ∀ t w, c.schema.widthWithin d t = some w →
      ∀ context, Exactly w (c.readBase nested t context))
    (r : RecordType) (fields : List Field) (slots : List Value) (fr : Frame)
    (h : Schema.fieldsWidth (c.schema.widthWithin d) fields = some w) :
    Exactly w (c.readFields nested r fields slots fr) := by
  induction fields generalizing w slots fr with
  | nil =>
    cases h
    exact exactly_done _
  | cons f fs ih =>
    obtain ⟨hf, w₁, w₂, h₁, h₂, rfl⟩ := Schema.fieldsWidth_cons h
    rw [readFields_cons]
    refine Exactly.andThen ?_ fun v => ih _ _ h₂
    have hkept := keptWidth_of_widthWithin hd h₁
    exact ((exactly_readField hf _ hkept (hnested _ _ h₁ _)).labelled _).noted _

/-- A value of a type is read from as many bytes as the type is wide. -/
theorem exactly_readBase (hl : c.schema.Linked) (hd : d ≤ c.schema.types.length)
    (h : c.schema.widthWithin d t = some w) (depth : Nat) (context : Option Context) :
    Exactly w (c.readBase (c.decodeRecord depth) t context) := by
  induction d using Nat.strongRecOn generalizing t w depth context with
  | ind d ih =>
    by_cases ht : t.kind.isComposite = true
    · obtain ⟨d', r, rfl, hr, hfields⟩ := Schema.widthWithin_composite ht h
      have hbase : c.readBase (c.decodeRecord depth) t context =
          andThen (c.decodeRecord depth t.name context) fun r s => .done r.toValue s := by
        rw [← map_eq_andThen]
        funext s
        rw [readBase, if_pos ht]
      have hrecord : Exactly w (c.decodeRecord depth t.name context) := by
        cases depth with
        | zero =>
          intro s v s' hv
          cases hv
        | succ depth =>
          have htype : c.type? t.name = some r := by
            rw [type?_declared hl (by rw [hr]; rfl), hr]
          rw [decodeRecord_succ c depth htype]
          apply Exactly.map
          exact exactly_readFields (by omega)
            (fun t w h context => ih d' (Nat.lt_succ_self d') (by omega) h depth context)
            r r.fields [] _ hfields
      rw [hbase]
      exact hrecord.map _
    · have ht : t.kind.isComposite = false := by simpa using ht
      rw [Schema.widthWithin_scalar _ _ ht] at h
      have hbase : c.readBase (c.decodeRecord depth) t context = c.readScalar t.kind := by
        funext s
        simp only [readBase, ht, Bool.false_eq_true, if_false]
      rw [hbase, ← Option.some.inj h]
      cases hk : t.kind with
      | primitive p =>
        rw [readScalar_primitive]
        exact exactly_taking p.width _
      | composite => simp [hk, TypeKind.isComposite] at ht
      | unassigned code => exact exactly_failing _ .truncated _

end Codec

namespace Output

variable {w w' : Nat}

/-- Whatever is written without a failure is `w` bytes. -/
def WritesExactly {ε : Type} (w : Nat) (p : Output → Pass Output ε Unit) : Prop :=
  ∀ out out', p out = .done () out' → ∃ b, out.Gains out' b ∧ b.length = w

/-- A sink that lets the pass go on has taken the whole chunk. -/
theorem writesExactly_write (sink : Sink) (chunk : List UInt8) :
    WritesExactly chunk.length fun out => out.write sink chunk := by
  intro out out' h
  simp only [write] at h
  split at h
  · cases h
  · split at h
    · cases h
    · rename_i hwhole
      have htaken : min (sink out chunk).taken chunk.length = chunk.length := by omega
      cases h
      refine ⟨chunk, ⟨?_, ?_⟩, rfl⟩
      · simp [Output.bytes, htaken]
      · simp [htaken]

theorem Gains.of_empty {out : Output} {b : List UInt8} (h : empty.Gains out b) :
    out.bytes = b ∧ out.count = b.length :=
  ⟨h.bytes, h.count.trans (Nat.zero_add _)⟩

theorem writesExactly_writeAll (sink : Sink) (chunks : List (List UInt8)) :
    WritesExactly chunks.flatten.length fun out => out.writeAll sink chunks := by
  induction chunks with
  | nil =>
    intro out out' h
    cases h
    exact ⟨[], .refl out, rfl⟩
  | cons chunk chunks ih =>
    intro out out' h
    simp only [writeAll] at h
    cases h₁ : out.write sink chunk with
    | failed e out₁ => simp [h₁] at h
    | done u out₁ =>
      simp only [h₁] at h
      obtain ⟨b, hb, hw⟩ := writesExactly_write sink chunk out out₁ h₁
      obtain ⟨b', hb', hw'⟩ := ih out₁ out' h
      exact ⟨b ++ b', hb.trans hb', by simp [hw, hw']⟩

end Output

namespace Codec

open Output

variable {c : Codec} {t : TypeRef} {f : Field} {d w : Nat}

/-- A single value that is no record takes up the width of its type, present or not. -/
theorem writesExactly_writeSingle (sink : Sink) (hf : f.Steady)
    (h : c.schema.fixedWidth f.type = some w) (v : Value) :
    WritesExactly w (c.writeSingle sink f v) := by
  intro out out' hv
  have hkept : c.keptWidth f.type = w := by
    rw [keptWidth, h]
    rfl
  unfold writeSingle at hv
  split at hv
  · rename_i cond hc
    rw [if_pos (hf.advance cond hc), hkept] at hv
    obtain ⟨b, hb, hlen⟩ := writesExactly_writeAll sink _ out out' (Delivery.toEncoding_eq_done hv)
    rw [flatten_zeroChunks, List.length_replicate] at hlen
    exact ⟨b, hb, hlen⟩
  · split at hv
    · cases hv
    · rename_i ht
      have hv := Delivery.toEncoding_eq_done hv
      unfold deliver at hv
      split at hv
      · rename_i x
        split at hv
        · rename_i hk
          have ht : f.type.kind.isComposite = false := by simpa using ht
          rw [Schema.fixedWidth, Schema.widthWithin_scalar _ _ ht, hk] at h
          obtain ⟨b, hb, hlen⟩ := writesExactly_write sink _ out out' hv
          rw [Scalar.length_encode] at hlen
          exact ⟨b, hb, hlen.trans (Option.some.inj h)⟩
        · cases hv
      · cases hv

theorem writesExactly_writeSlots (sink : Sink)
    (hvalue : ∀ f w, f.Steady → c.schema.widthWithin d f.type = some w →
      ∀ fr v, WritesExactly w (c.writeValue sink f none fr v))
    (t own : RecordType) (vs : List Value) (fields : List Field) (before : List Value) (fr : Frame)
    (hlen : vs.length = fields.length)
    (h : Schema.fieldsWidth (c.schema.widthWithin d) fields = some w) :
    WritesExactly w (c.writeSlots sink t own fields before fr vs) := by
  induction vs generalizing fields before fr w with
  | nil =>
    obtain rfl := List.length_eq_zero_iff.mp hlen.symm
    cases h
    intro out out' hv
    unfold writeSlots at hv
    cases hv
    exact ⟨[], .refl out, rfl⟩
  | cons v vs ih =>
    cases fields with
    | nil => simp at hlen
    | cons f fs =>
      obtain ⟨hf, w₁, w₂, h₁, h₂, rfl⟩ := Schema.fieldsWidth_cons h
      intro out out' hv
      simp only [writeSlots, hf.single] at hv
      split at hv
      · rename_i out₁ hout
        obtain ⟨b, hb, hw⟩ := hvalue f w₁ hf h₁ _ v out out₁ hout
        obtain ⟨b', hb', hw'⟩ := ih fs _ _ (by simpa using hlen) h₂ _ out' hv
        exact ⟨b ++ b', (hb.note _).trans hb', by simp [hw, hw']⟩
      · cases hv

theorem writable?_eq_some {wanted : String} {found t : RecordType} {slots : List Value}
    (h : c.writable? wanted found slots = some t) :
    c.type? wanted = some t ∧ slots.length = t.fields.length := by
  unfold writable? at h
  split at h
  · rename_i t' ht
    split at h
    · rename_i hfound
      cases h
      exact ⟨ht, hfound.2⟩
    · cases h
  · cases h

/-- A value of a type is written as as many bytes as the type is wide. -/
theorem writesExactly_writeValue (hl : c.schema.Linked) (sink : Sink)
    (hd : d ≤ c.schema.types.length) (hf : f.Steady)
    (h : c.schema.widthWithin d f.type = some w) (fr : Frame) (v : Value) :
    WritesExactly w (c.writeValue sink f none fr v) := by
  induction d using Nat.strongRecOn generalizing f w fr v with
  | ind d ih =>
    have hsingle := writesExactly_writeSingle sink hf (Schema.fixedWidth_of_widthWithin hd h)
    intro out out' hv
    unfold writeValue at hv
    split at hv
    · exact hsingle _ out out' hv
    · rename_i type slots
      dsimp only at hv
      split at hv
      · rename_i ht
        obtain ⟨d', r, rfl, hr, hfields⟩ := Schema.widthWithin_composite ht h
        split at hv
        · cases hv
        · rename_i t hw
          obtain ⟨htype, hlen⟩ := writable?_eq_some hw
          rw [type?_declared hl (by rw [hr]; rfl), hr] at htype
          cases htype
          exact writesExactly_writeSlots sink
            (fun f w hf h fr v => ih d' (Nat.lt_succ_self d') (by omega) hf h fr v)
            r type slots r.fields [] _ hlen hfields out out' hv
      · exact hsingle _ out out' hv
    · exact hsingle _ out out' hv

/-- A record on its own is written like a field that always holds it. -/
theorem encodeRecord_eq_writeValue (c : Codec) (sink : Sink) (ht : t.kind.isComposite = true)
    (context : Option Context) (r : Record) (out : Output) :
    c.encodeRecord sink t.name context (some r) out =
      c.writeValue sink ⟨"", t, none, none⟩ none ⟨[], context⟩ r.toValue out := by
  rw [Record.toValue, writeValue]
  simp only [encodeRecord, ht, if_true]

/-- The width of a type is exact. Whatever is read of it, anywhere and in any context, is read from
so many bytes, and whatever is written of it is so many bytes, whichever of its fields are absent. -/
theorem fixedWidth_exact {s : Schema} {options : CodecOptions}
    (hs : (∃ document, Schema.parse document = .ok s) ∨
      ∃ order name types items, Schema.build order name types items = .ok s)
    (hc : compile (some s) options = .ok c) (h : s.fixedWidth t = some w) :
    (∀ depth context, Reader.Exactly w (c.readBase (c.decodeRecord depth) t context)) ∧
    (∀ sink f fr v, f.type = t → f.Steady → WritesExactly w (c.writeValue sink f none fr v)) ∧
    (t.kind.isComposite = true →
      (∀ context, Reader.Exactly w (c.decodeType t.name context)) ∧
      ∀ sink context r out, c.encodeType sink t.name context r = .done () out →
        out.bytes.length = w ∧ out.count = w) := by
  have hl : c.schema.Linked := by
    rw [compile_ok hc]
    rcases hs with ⟨document, hs⟩ | ⟨_, _, _, _, hs⟩
    · exact Schema.Accepted.linked (.of_parse hs)
    · exact Schema.linked_of_build hs
  have hw : c.schema.widthWithin c.schema.types.length t = some w := by
    rw [compile_ok hc]
    exact h
  have hread := exactly_readBase hl (Nat.le_refl _) hw
  have hwrite : ∀ sink f fr v, f.type = t → f.Steady →
      WritesExactly w (c.writeValue sink f none fr v) := by
    rintro sink f fr v rfl hf
    exact writesExactly_writeValue hl sink (Nat.le_refl _) hf hw fr v
  refine ⟨hread, hwrite, fun ht => ⟨?_, ?_⟩⟩
  · intro context src r src' hr
    simp only [decodeType] at hr
    split at hr
    · cases hr
    · rename_i r₁ src₁ hr₁
      cases hr
      have hbase : c.readBase (c.decodeRecord (c.depthLimit src.rest.length)) t context src =
          .done r.toValue src₁ := by
        rw [readBase, if_pos ht, hr₁]
        rfl
      obtain ⟨b, hb, hlen⟩ := hread _ context src _ src₁ hbase
      exact ⟨b, hb.note _, hlen⟩
  · intro sink context r out hr
    simp only [encodeType] at hr
    cases r with
    | none => cases hr
    | some r =>
      rw [encodeRecord_eq_writeValue c sink ht] at hr
      split at hr
      · rename_i out₁ hout
        cases hr
        have hplain : Field.Steady ⟨"", t, none, none⟩ := ⟨rfl, by simp⟩
        obtain ⟨b, hb, hlen⟩ := hwrite sink ⟨"", t, none, none⟩ _ _ rfl hplain .empty out₁ hout
        obtain ⟨hbytes, hcount⟩ := (hb.note (.encodedRecord t.name out₁.count)).of_empty
        rw [hbytes, hcount, hlen]
        exact ⟨rfl, rfl⟩
      · cases hr

theorem fixedWidth_exact_absent_field :
    ∃ s c, Schema.parse ("types:\n  P:\n  - id: a\n    type: u8\n  - id: b\n    type: u16\n" ++
        "    if: a > 3\n    advance_if_false: true\nitems:\n- id: p\n  type: P").toUTF8.toList =
          .ok s ∧
      compile (some s) .strict = .ok c ∧ s.fixedWidth (.ofName "P") = some 3 ∧
      ∃ r src, c.decodeType "P" none ⟨[1, 9, 9, 7], 5, true, []⟩ = .done r src ∧
        src.rest = [7] ∧ src.offset = 8 ∧
        ∃ out, c.encodeType .memory "P" none (some r) = .done () out ∧ out.bytes.length = 3 := by
  refine exists_of_parse (fun c => (c.schema.fixedWidth (.ofName "P")).bind fun w =>
    (c.decodeType "P" none ⟨[1, 9, 9, 7], 5, true, []⟩).result.toOption.bind fun r =>
      (c.encodeType .memory "P" none (some r)).result.toOption.map fun _ => w) 3
    (by decide +kernel) ?_
  intro s c hs hc h
  obtain ⟨w, hw, h⟩ := Option.bind_eq_some_iff.mp h
  obtain ⟨r, hr, h⟩ := Option.bind_eq_some_iff.mp h
  obtain ⟨u, hout, rfl⟩ := Option.map_eq_some_iff.mp h
  have hr := Pass.eq_done_of_result (eq_ok_of_toOption hr)
  have hout := Pass.eq_done_of_result (eq_ok_of_toOption hout)
  have hw : s.fixedWidth (.ofName "P") = some 3 := by
    rw [compile_ok hc] at hw
    exact hw
  obtain ⟨-, -, hcomposite⟩ := fixedWidth_exact (.inl ⟨_, hs⟩) hc hw
  obtain ⟨hread, hwrite⟩ := hcomposite rfl
  obtain ⟨b, hpast, hlen⟩ := hread none _ r _ hr
  refine ⟨hw, r, _, hr, ?_, ?_, _, hout, (hwrite .memory none (some r) _ hout).1⟩
  · rw [hpast.rest_eq_drop, hlen]
    rfl
  · rw [hpast.offset, hlen]

end Codec

end Savefile
