import Savefile.Proofs.WellFormed
import Savefile.Proofs.Writer

/-!
# Strict and lenient writers

A strict codec and a lenient one write the same chunks in the same order, until the strict one comes
to a list whose length is not what its count says, or whose count cannot be evaluated. So what a
strict codec writes a lenient one writes as well, and they refuse the same values; the strict one
fails on its own only at a list, and for no other reason than its count.
-/
namespace Savefile

namespace Encoding

/-- The pass ended with bytes or with an error. -/
def Ends (pass : Encoding) : Prop := ∀ f out, pass ≠ .failed (.fault f) out

theorem Ends.toEncoding (scalar : Bool) (d : Delivery) : Ends (d.toEncoding scalar) := by
  intro f out h
  cases d <;> cases h

theorem Ends.written_ne {pass : Encoding} (h : pass.Ends) (f : Fault) :
    pass.written ≠ .error (.fault f) := by
  intro hwritten
  cases pass with
  | done _ out => cases hwritten
  | failed stop out =>
    cases hwritten
    exact h f out rfl

end Encoding

namespace Codec

open Writer

/-- What a strict codec has against the list at a spot. -/
inductive CountFault (spot : Spot) : EncodeErrorKind → Cause → Prop
  | unknown {r : Repetition} {items : List Value} {e : ExprError} : spot.repeated = some r →
      spot.value = .list items → r.expr.evalCount spot.frame.scope = .error (.error e) →
      CountFault spot .expression (.expression e)
  | other {r : Repetition} {items : List Value} {count : Nat} : spot.repeated = some r →
      spot.value = .list items → r.expr.evalCount spot.frame.scope = .ok count →
      count ≠ items.length →
      CountFault spot .count (.otherCount r.kind r.expr.source count items.length)

theorem CountFault.kind_ne_invalid {spot : Spot} {kind : EncodeErrorKind} {cause : Cause}
    (h : CountFault spot kind cause) : kind ≠ .invalid := by
  cases h <;> simp

theorem CountFault.wrapsReading_eq {spot : Spot} {kind : EncodeErrorKind} {cause : Cause}
    (h : CountFault spot kind cause) : cause.wrapsReading = false := by
  cases h <;> rfl

/-- Writing stopped over the count of a list inside the value at a spot. It broke off if the count was
never set. -/
inductive StopsAtCount (c : Codec) (spot : Spot) : EncodeStop → Prop
  | error {e : EncodeError} {last : Spot} : c.Within spot e.path last →
      CountFault last e.kind e.cause → StopsAtCount c spot (.error e)
  | unset {path : List PathStep} {last : Spot} {r : Repetition} {items : List Value} :
      c.Within spot path last → last.repeated = some r → last.value = .list items →
      r.expr.meaning = none → StopsAtCount c spot (.fault .unset)

theorem stopsAtCount_of_countStop? {c : Codec} (d : Codec) {spot : Spot} {r : Repetition}
    {items : List Value} {stop : EncodeStop} (hr : spot.repeated = some r)
    (hitems : spot.value = .list items)
    (h : d.countStop? r spot.frame.scope items.length = some stop) : c.StopsAtCount spot stop := by
  unfold countStop? at h
  split at h
  · cases h
  · cases hcount : r.expr.evalCount spot.frame.scope with
    | error why =>
      simp only [hcount, Option.some.injEq] at h
      subst h
      cases why with
      | error e => exact .error (.itself spot) (.unknown hr hitems hcount)
      | fault f =>
        obtain ⟨rfl, hunset⟩ := Expr.fault_of_evalCount hcount
        exact .unset (.itself spot) hr hitems hunset
    | ok count =>
      simp only [hcount] at h
      split at h
      · cases h
      · rename_i hne
        cases h
        exact .error (.itself spot) (.other hr hitems hcount hne)

/-- What stops inside a part of the value stops inside the value. -/
theorem StopsAtCount.inside {c : Codec} {spot next : Spot} {step : PathStep}
    {label : EncodeError → EncodeError} {stop : EncodeStop} (henters : c.Enters spot step next)
    (hlabel : EncodeError.IsLabel step label) (h : c.StopsAtCount next stop) :
    c.StopsAtCount spot (stop.map label) := by
  cases h with
  | @error e last hwithin hfault =>
    apply @StopsAtCount.error c spot (label e) last
    · rw [hlabel.path e hfault.wrapsReading_eq]
      exact .inside henters hwithin
    · rw [hlabel.kind, hlabel.cause]
      exact hfault
  | unset hwithin hr hitems hunset => exact .unset (.inside henters hwithin) hr hitems hunset

/-- The second pass ends, and it does what the first does, unless the first stops over the count of a
list inside the value at the spot. -/
inductive Loosens (c : Codec) (spot : Spot) : Encoding → Encoding → Prop
  | same {pass : Encoding} : pass.Ends → Loosens c spot pass pass
  | counted {stop : EncodeStop} {out : Output} {pass : Encoding} : c.StopsAtCount spot stop →
      pass.Ends → Loosens c spot (.failed stop out) pass

namespace Loosens

variable {c : Codec} {spot : Spot} {x y : Encoding}

theorem ends (h : c.Loosens spot x y) : y.Ends := by
  cases h with
  | same hends => exact hends
  | counted _ hends => exact hends

theorem inside {next : Spot} {step : PathStep} {label : EncodeError → EncodeError}
    (henters : c.Enters spot step next) (hlabel : EncodeError.IsLabel step label)
    {q q' : Writer} (h : c.Loosens next x y) (hrest : ∀ out, c.Loosens spot (q out) (q' out)) :
    c.Loosens spot (Encoding.andThen label q x) (Encoding.andThen label q' y) := by
  have hlabelled : (Encoding.andThen label q' y).Ends := by
    cases y with
    | done _ out => exact (hrest out).ends
    | failed stop out =>
      cases stop with
      | fault f => exact absurd rfl (h.ends f out)
      | error e =>
        intro f out' hfault
        cases hfault
  cases h with
  | same hends =>
    cases x with
    | done _ out => exact hrest out
    | failed stop out => exact .same hlabelled
  | counted hstops _ => exact .counted (hstops.inside henters hlabel) hlabelled

theorem of_ok {b : List UInt8} (h : c.Loosens spot x y) (hx : x.written = .ok b) :
    y.written = .ok b := by
  cases h with
  | same => exact hx
  | counted => cases hx

theorem of_invalid {e : EncodeError} (h : c.Loosens spot x y) (hx : x.written = .error (.error e))
    (he : e.kind = .invalid) : y.written = .error (.error e) := by
  cases h with
  | same => exact hx
  | counted hstops =>
    cases hx
    cases hstops with
    | error _ hfault => exact absurd he hfault.kind_ne_invalid

theorem of_error_ok {stop : EncodeStop} {b : List UInt8} (h : c.Loosens spot x y)
    (hx : x.written = .error stop) (hy : y.written = .ok b) : c.StopsAtCount spot stop := by
  cases h with
  | same =>
    rw [hx] at hy
    cases hy
  | counted hstops =>
    cases hx
    exact hstops

theorem of_fault {f : Fault} (h : c.Loosens spot x y) (hx : x.written = .error (.fault f)) :
    c.StopsAtCount spot (.fault f) := by
  cases h with
  | same hends =>
    cases x with
    | done _ out => cases hx
    | failed stop out =>
      cases hx
      exact absurd rfl (hends f out)
  | counted hstops =>
    cases hx
    exact hstops

end Loosens

/-- Among two options of which the second is lenient, the second loosens the first. -/
theorem loosens_law (c : Codec) (options : Bool → CodecOptions)
    (hlenient : (options true).lenient = true) (sink : Sink) :
    Law c (fun _ => c.schema.order) options (fun _ => sink) fun spot w =>
      ∀ out, c.Loosens spot (w false out) (w true out) where
  scalar _ _ _ := .same (.toEncoding _ _)
  room _ _ _ := .same (.toEncoding _ _)
  refusing _ _ _ _ out := .same fun f out' h => by cases h
  noted _ _ h out := h _
  counted := by
    intro spot r items p hr hitems h out
    have hnone : (c.under (options true)).countStop? r spot.frame.scope items.length = none := by
      unfold countStop?
      exact if_pos hlenient
    simp only [counted, hnone]
    cases hstop : (c.under (options false)).countStop? r spot.frame.scope items.length with
    | none => exact h out
    | some stop =>
      -- The lenient pass goes on; how it ends does not matter any more.
      exact .counted (stopsAtCount_of_countStop? _ hr hitems hstop) (h out).ends
  inside henters hlabel hp hq out := (hp out).inside henters hlabel hq

theorem loosens_encodeRecord (c : Codec) (strict lenient : CodecOptions)
    (hlenient : lenient.lenient = true) (sink : Sink) (name : String) (context : Option Context)
    (r : Record) (out : Output) :
    c.Loosens (.ofRecord name context r)
      ((c.under strict).encodeRecord sink name context (some r) out)
      ((c.under lenient).encodeRecord sink name context (some r) out) :=
  (loosens_law c (fun second => cond second lenient strict) hlenient sink).encodeRecord name context
    r out

/-- What holds of the fields of all types holds of the field at a spot inside a record. -/
theorem Within.forall_field {c : Codec} {P : Field → Prop}
    (hP : ∀ t, t ∈ c.schema.types ∨ t = c.schema.root → ∀ f ∈ t.fields, P f) {spot last : Spot}
    {path : List PathStep} (h : c.Within spot path last) (hspot : P spot.field) : P last.field := by
  induction h with
  | itself => exact hspot
  | inside henters _ ih =>
    apply ih
    cases henters with
    | element => exact hspot
    | slot _ _ _ hwritable hcomes =>
      exact hP _ (mem_of_type? (writable?_eq_some hwritable).1) _ hcomes.mem

/-- What a strict codec writes a lenient one writes too, and what it refuses the lenient one refuses
for the same reason. If only the strict one fails, it fails at the list of a repeated field: its count
cannot be evaluated, or it is not the length of the list. The lenient codec always ends with bytes or
an error; the strict one does so too, unless it comes to a list whose count was never set, and in a
schema that was read all counts are set. -/
theorem encode_strict_refines {s : Schema} {journal journal' : Option String}
    {strict lenient : Codec} (hstrict : compile (some s) ⟨false, journal⟩ = .ok strict)
    (hlenient : compile (some s) ⟨true, journal'⟩ = .ok lenient) (r : Option Record) :
    (∀ b, strict.encode r = .ok b → lenient.encode r = .ok b) ∧
    (∀ e, strict.encode r = .error (.error e) → e.kind = .invalid →
      lenient.encode r = .error (.error e)) ∧
    (∀ e b, strict.encode r = .error (.error e) → lenient.encode r = .ok b →
      ∃ record spot rep items, r = some record ∧
        strict.Within (.ofRecord s.root.name none record) e.path spot ∧
        spot.field.repetition = some rep ∧ spot.value = .list items ∧
        (e.kind = .expression ∧ (∃ err, rep.expr.evalCount spot.frame.scope = .error (.error err)) ∨
          e.kind = .count ∧ ∃ count, rep.expr.evalCount spot.frame.scope = .ok count ∧
            count ≠ items.length)) ∧
    ∀ f, lenient.encode r ≠ .error (.fault f) ∧ (s.Accepted → strict.encode r ≠ .error (.fault f)) ∧
      (strict.encode r = .error (.fault f) →
        ∃ record path spot rep items, r = some record ∧
          strict.Within (.ofRecord s.root.name none record) path spot ∧
          spot.field.repetition = some rep ∧ spot.value = .list items ∧ f = .unset ∧
          rep.expr.meaning = none) := by
  obtain rfl := compile_ok hstrict
  obtain rfl := compile_ok hlenient
  rw [encode_eq_written, encode_eq_written]
  cases r with
  | none =>
    refine ⟨fun _ h => h, fun _ h _ => h, ?_, fun f => ⟨?_, fun _ => ?_, ?_⟩⟩
    · intro e b _ h
      cases h
    all_goals intro h; cases h
  | some record =>
    have hloosens := loosens_encodeRecord ⟨s, ⟨false, journal⟩⟩ ⟨false, journal⟩ ⟨true, journal'⟩ rfl
      .memory s.root.name none record .empty
    have hfault : ∀ f, Encoding.written (encodeRecord ⟨s, ⟨false, journal⟩⟩ .memory s.root.name none
        (some record) .empty) = .error (.fault f) →
        ∃ path spot rep items, Within ⟨s, ⟨false, journal⟩⟩ (.ofRecord s.root.name none record)
          path spot ∧ spot.field.repetition = some rep ∧ spot.value = .list items ∧ f = .unset ∧
          rep.expr.meaning = none := by
      intro f hf
      cases hloosens.of_fault hf with
      | unset hwithin hr hitems hunset =>
        have hrepetition := hwithin.repetition (by simp [Spot.ofRecord])
        exact ⟨_, _, _, _, hwithin, hrepetition _ hr, hitems, rfl, hunset⟩
    refine ⟨fun _ h => hloosens.of_ok h, fun _ h he => hloosens.of_invalid h he, ?_, fun f =>
      ⟨hloosens.ends.written_ne f, fun hs h => ?_, fun h => ?_⟩⟩
    · intro e b he hb
      cases hloosens.of_error_ok he hb with
      | @error _ spot hwithin hwhy =>
        have hrepetition := hwithin.repetition (by simp [Spot.ofRecord])
        generalize e.kind = kind at hwhy ⊢
        generalize e.cause = cause at hwhy
        cases hwhy with
        | @unknown rep items err hr hitems heval =>
          exact ⟨record, spot, rep, items, rfl, hwithin, hrepetition rep hr, hitems,
            .inl ⟨rfl, err, heval⟩⟩
        | @other rep items count hr hitems heval hne =>
          exact ⟨record, spot, rep, items, rfl, hwithin, hrepetition rep hr, hitems,
            .inr ⟨rfl, count, heval, hne⟩⟩
    · obtain ⟨path, spot, rep, items, hwithin, hrep, -, -, hunset⟩ := hfault f h
      have hset : Schema.Evaluable spot.field := by
        apply hwithin.forall_field hs.evaluable
        exact Schema.evaluable_of_none rfl rfl
      exact hset.repetition rep hrep hunset
    · obtain ⟨path, spot, rep, items, hfault⟩ := hfault f h
      exact ⟨record, path, spot, rep, items, rfl, hfault⟩

/-- A list inside a nested record has one element where the root asks for two. -/
theorem encode_strict_refines_nested_list :
    ∃ s strict, Schema.parse ("types:\n  P:\n  - id: xs\n    type: '[]u8'\n" ++
        "    repeat: Count(_root.n)\nitems:\n- id: n\n  type: u8\n- id: p\n" ++
        "  type: P").toUTF8.toList = .ok s ∧
      compile (some s) ⟨false, none⟩ = .ok strict ∧
      ∃ lenient p record e spot rep items, compile (some s) ⟨true, none⟩ = .ok lenient ∧
        s.declared? "P" = some p ∧
        record = ⟨s.root, [.scalar (.u8 2), .record p [.list [.scalar (.u8 7)]]]⟩ ∧
        strict.encode (some record) = .error (.error e) ∧
        lenient.encode (some record) = .ok [2, 7] ∧
        PathStep.render e.path = "p.xs" ∧ e.kind = .count ∧
        strict.Within (.ofRecord s.root.name none record) e.path spot ∧
        spot.field.repetition = some rep ∧ spot.value = .list items ∧
        ∃ count, rep.expr.evalCount spot.frame.scope = .ok count ∧ count ≠ items.length := by
  refine exists_of_parse (fun c => (c.schema.declared? "P").bind fun p =>
    (failure? (c.encode (some ⟨c.schema.root,
      [.scalar (.u8 2), .record p [.list [.scalar (.u8 7)]]]⟩))).bind fun e =>
        ((c.under ⟨true, none⟩).encode (some ⟨c.schema.root,
          [.scalar (.u8 2), .record p [.list [.scalar (.u8 7)]]]⟩)).toOption.map fun b =>
            (b, PathStep.render e.path, e.kind)) ([2, 7], "p.xs", .count) (by decide +kernel) ?_
  intro s strict hs hc h
  obtain ⟨p, hp, h⟩ := Option.bind_eq_some_iff.mp h
  obtain ⟨e, he, h⟩ := Option.bind_eq_some_iff.mp h
  obtain ⟨b, hb, h⟩ := Option.map_eq_some_iff.mp h
  rw [Prod.mk.injEq, Prod.mk.injEq] at h
  obtain ⟨rfl, htext, hkind⟩ := h
  obtain rfl := compile_ok hc
  have haccepted : s.Accepted := .of_parse hs
  have hc' := compile_of_fault? haccepted.wellFormed.fault? ⟨true, none⟩
  have he := eq_error_of_failure? he
  have hb := eq_ok_of_toOption hb
  obtain ⟨record, spot, rep, items, hrecord, hwithin, hrep, hitems, hwhy⟩ :=
    (encode_strict_refines hc hc' _).2.2.1 e _ he hb
  cases hrecord
  rcases hwhy with ⟨hexpression, -⟩ | ⟨-, hcount⟩
  · rw [hkind] at hexpression
    cases hexpression
  · exact ⟨_, p, _, e, spot, rep, items, hc', hp, rfl, he, hb, htext, hkind, hwithin, hrep, hitems,
      hcount⟩

end Codec

end Savefile
