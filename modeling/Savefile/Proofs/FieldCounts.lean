import Savefile.Proofs.Culprit
import Savefile.Proofs.RecordJson
import Savefile.Proofs.Strictness
import Savefile.Proofs.Views

/-!
# Counts taken from fields

A list may be as long as an earlier field says, wherever expressions reach that field: in the same
record, in a record or a list before it, or among the leading fields of the root. Whatever the width
of the field, the count is the number in it, both when the list is read and when a strict codec
writes it; a number that can be no count is an error, and never another count.
-/
namespace Savefile

/-- The number can be a count: it is not negative and fits into 63 bits. -/
def Expr.IsCount (n : Int) : Prop := 0 ≤ n ∧ n < 0x8000000000000000

/-- The count of the expression is the number, or there is none and the error names the number. -/
structure Expr.CountsAs (e : Expr) (scope : Scope) (n : Int) : Prop where
  count : IsCount n → e.evalCount scope = .ok n.toNat
  negative : n < 0 → e.evalCount scope = .error (.error (.negative e.source n))
  tooLarge : 0x8000000000000000 ≤ n →
    e.evalCount scope = .error (.error (.tooLarge e.source n.toNat))

namespace Expr

variable {e : Expr} {scope : Scope} {x : Scalar} {n : Int}

theorem countsAs_of_eval (he : e.eval scope = .ok x.toDatum) (hx : x.toInt? = some n) :
    e.CountsAs scope n := by
  have hcount := evalCount_eq he (Scalar.toInt?_toDatum hx)
  have hlimit : (countLimit : Int) = 0x8000000000000000 := rfl
  constructor
  · rintro ⟨hlow, hhigh⟩
    rw [hcount, if_neg (by omega), if_pos (by omega)]
  · intro hlow
    rw [hcount, if_pos hlow]
  · intro hhigh
    rw [hcount, if_neg (by omega), if_neg (by omega)]

theorem CountsAs.eq_of_ok (h : e.CountsAs scope n) {count : Nat}
    (hcount : e.evalCount scope = .ok count) : n = count ∧ IsCount n := by
  rcases Int.lt_or_le n 0 with hlow | hlow
  · rw [h.negative hlow] at hcount
    cases hcount
  · rcases Int.lt_or_le n 0x8000000000000000 with hhigh | hhigh
    · rw [h.count ⟨hlow, hhigh⟩] at hcount
      cases hcount
      exact ⟨(Int.toNat_of_nonneg hlow).symm, hlow, hhigh⟩
    · rw [h.tooLarge hhigh] at hcount
      cases hcount

theorem CountsAs.exists_error (h : e.CountsAs scope n) (hn : ¬IsCount n) :
    ∃ err, e.evalCount scope = .error (.error err) := by
  rcases Int.lt_or_le n 0 with hlow | hlow
  · exact ⟨_, h.negative hlow⟩
  · exact ⟨_, h.tooLarge (Int.not_lt.mp fun hhigh => hn ⟨hlow, hhigh⟩)⟩

end Expr

/-- The number that an error says can be no count. -/
def ExprError.number? : ExprError → Option Int
  | .negative _ n => some n
  | .tooLarge _ n => some n
  | _ => none

def Cause.number? : Cause → Option Int
  | .expression err => err.number?
  | _ => none

namespace Expr

variable {e : Expr} {scope : Scope} {err : ExprError} {x : Scalar} {n : Int}

theorem number?_of_eval (h : e.eval scope = .error (.error err)) : err.number? = none := by
  unfold eval at h
  split at h
  · cases h
  · split at h
    · cases h
    · cases h
      rfl

theorem number?_of_evalBool (h : e.evalBool scope = .error (.error err)) : err.number? = none := by
  unfold evalBool at h
  cases heval : e.eval scope with
  | error err' =>
    rw [heval] at h
    cases h
    exact number?_of_eval heval
  | ok d =>
    rw [heval] at h
    cases d with
    | bool => cases h
    | _ =>
      cases h
      rfl

/-- Where a count fails over a number, the expression has the number for its value. -/
theorem eval_of_number? (h : e.evalCount scope = .error (.error err)) (hn : err.number? = some n)
    (hx : x.toInt? = some n) : e.eval scope = .ok x.toDatum := by
  unfold evalCount at h
  cases heval : e.eval scope with
  | error err' =>
    rw [heval] at h
    cases h
    rw [number?_of_eval heval] at hn
    cases hn
  | ok d =>
    rw [heval] at h
    replace h : countOf e.source d = .error (.error err) := h
    rw [Scalar.toDatum_of_toInt? hx, Scalar.intDatum]
    cases d with
    | int k =>
      rw [countOf] at h
      split at h
      · cases h
        cases hn
        have hlimit : k.toInt < signedLimit := k.toInt_lt
        rw [if_pos hlimit, Int64.ofInt_toInt]
      · cases h
    | uint k =>
      rw [countOf] at h
      split at h
      · cases h
      · rename_i hlarge
        cases h
        cases hn
        have hlimit : ¬((k.toNat : Int) < signedLimit) := fun hlt => hlarge (Int.ofNat_lt.mp hlt)
        rw [if_neg hlimit, Int.toNat_natCast, Nat.toUInt64_eq, UInt64.ofNat_toNat]
    | _ =>
      cases h
      cases hn

end Expr

/-- No identifier has a dot in it. -/
theorem Text.not_mem_of_isIdentifier {id : String} (h : isIdentifier id = true) :
    '.' ∉ id.toList := by
  intro hdot
  have hrest := isIdentRest_of_mem h '.' hdot
  revert hrest
  decide

/-- A term that reaches a field has the value of the field, as the view shows it. -/
theorem Frame.Shows.eval_eq {fr : Frame} {view : View} (h : fr.Shows view)
    (hnamed : Schema.Named view.type.fields) {e : Expr} {term : Expr.Term}
    (he : e.meaning = some term.eval) {x : String} {steps : List PathStep} (haccess : Expr.Accesses fr.scope term x steps) {v : Value}
    (hsees : view.Sees x steps v) : e.eval fr.scope = .ok v.toDatum := by
  have hnot : Schema.rootVariable ∉ view.ids := by
    intro hmem
    obtain ⟨f, hf, hid⟩ := List.mem_map.mp hmem
    exact hnamed.notRoot f hf hid
  -- so that a path of names is not taken for the name of a variable
  have hdots : ∀ entry ∈ fr.scope, '.' ∉ entry.1.toList := by
    intro entry hentry
    rcases h.names entry hentry with hroot | hfield
    · rw [hroot]
      decide
    · obtain ⟨f, hf, hid⟩ := List.mem_map.mp hfield
      rw [← hid]
      exact Text.not_mem_of_isIdentifier (hnamed.identifier f hf)
  obtain ⟨d, hlookup, hpart⟩ := h.exists_lookup hnot hsees
  rw [Expr.eval, he]
  simp only [haccess.eval_eq hdots hlookup hpart]

namespace Codec

variable {c : Codec} {n : Int} {r : Repetition}

theorem readAt_of_error {m : Moment} {err : ExprError} (hlisted : m.listed = true)
    (hr : m.field.repetition = some r)
    (herr : r.expr.evalCount m.frame.scope = .error (.error err)) :
    c.readAt m = m.source.fail .expression m.source.position (.expression err) := by
  rw [readAt_listed hlisted, readField]
  simp only [hr, herr]
  rfl

/-- A list that was read has as many elements as its count says. -/
theorem evalCount_of_readAt {m : Moment} {v : Value} {s' : Source} (hlisted : m.listed = true)
    (hr : m.field.repetition = some r) (h : c.readAt m = .done v s') :
    ∃ items, v = .list items ∧ r.expr.evalCount m.frame.scope = .ok items.length := by
  rw [readAt_listed hlisted] at h
  obtain ⟨hfits, -⟩ := readField_sound (decodeRecord_sound c m.levels) h
  cases hfits with
  | single hnone =>
    rw [hr] at hnone
    cases hnone
  | list hr' hcount =>
    cases hr.symm.trans hr'
    exact ⟨_, rfl, hcount⟩

/-- A list whose count has no value makes the whole reading fail there. -/
theorem decodeRecord_of_error {name : String} {context : Option Context} {levels : Nat}
    {src : Source} {path : List PathStep} {m : Moment} {err : ExprError}
    (h : c.Meets (.ofRecord name context levels src) path m) (hlisted : m.listed = true)
    (hr : m.field.repetition = some r)
    (herr : r.expr.evalCount m.frame.scope = .error (.error err)) :
    ∃ e s', c.decodeRecord levels name context src = .failed (.error e) s' ∧
      e.kind = .expression ∧ e.path = path ∧ e.cause = .expression err := by
  obtain ⟨e, he, hpath, hkind, hcause, -⟩ := h.failed (readAt_of_error hlisted hr herr)
  rw [readAt_ofRecord] at he
  cases hrecord : c.decodeRecord levels name context src with
  | done record s' =>
    rw [hrecord] at he
    cases he
  | failed stop s' =>
    rw [hrecord] at he
    cases he
    exact ⟨e, _, rfl, hkind, hpath.trans (List.append_nil _), hcause⟩

theorem writeValue_of_error (hstrict : c.options.lenient = false) {fr : Frame} {err : ExprError}
    (herr : r.expr.evalCount fr.scope = .error (.error err)) (sink : Sink) (f : Field)
    (items : List Value) (out : Output) :
    c.writeValue sink f (some r) fr (.list items) out = out.fail .expression (.expression err) := by
  simp [writeValue_list, Writer.counted, countStop?, hstrict, herr, Stop.map, Output.fail]

theorem writeValue_of_count (hstrict : c.options.lenient = false) {fr : Frame} {count : Nat}
    (hcount : r.expr.evalCount fr.scope = .ok count) (sink : Sink) (f : Field) (items : List Value)
    (out : Output) :
    c.writeValue sink f (some r) fr (.list items) out =
      if count = items.length then c.writeItems sink f fr 0 items out
      else out.fail .count (.otherCount r.kind r.expr.source count items.length) := by
  by_cases h : count = items.length
  · simp [writeValue_list, Writer.counted, countStop?, hstrict, hcount, h]
  · simp [writeValue_list, Writer.counted, countStop?, hstrict, hcount, h, Output.fail]

/-- A list that a strict codec has written has as many elements as its count says. -/
theorem evalCount_of_writeValue (hstrict : c.options.lenient = false) {sink : Sink} {f : Field}
    {fr : Frame} {items : List Value} {out out' : Output}
    (h : c.writeValue sink f (some r) fr (.list items) out = .done () out') :
    r.expr.evalCount fr.scope = .ok items.length := by
  cases hcount : r.expr.evalCount fr.scope with
  | error stop => simp [writeValue_list, Writer.counted, countStop?, hstrict, hcount] at h
  | ok count =>
    rw [writeValue_of_count hstrict hcount] at h
    split at h
    · rename_i hlength
      rw [hlength]
    · cases h

/-- The list that the reading of a record comes to under the path is read with the number for its
count; if the number can be no count, the reading fails there. -/
structure ReadsCount (c : Codec) (name : String) (context : Option Context) (levels : Nat)
    (src : Source) (path : List PathStep) (m : Moment) (r : Repetition) (n : Int) : Prop where
  counts : r.expr.CountsAs m.frame.scope n
  elements : Expr.IsCount n →
    c.readAt m = (readElements (c.elementReader m) r n.toNat n.toNat [] m.source).map .list
  length : ∀ v s', c.readAt m = .done v s' →
    ∃ items, v = .list items ∧ n = items.length ∧ Expr.IsCount n
  fails : ¬Expr.IsCount n → ∃ err e s',
    r.expr.evalCount m.frame.scope = .error (.error err) ∧
    c.decodeRecord levels name context src = .failed (.error e) s' ∧
    e.kind = .expression ∧ e.path = path ∧ e.cause = .expression err

/-- The list at the spot of the record is compared with the number for its count; if the number can be
no count, writing fails there. -/
structure WritesCount (c : Codec) (name : String) (context : Option Context) (record : Record)
    (spot : Spot) (r : Repetition) (items : List Value) (n : Int) : Prop where
  counts : r.expr.CountsAs spot.frame.scope n
  elements : Expr.IsCount n → ∀ sink out,
    c.writeValue sink spot.field (some r) spot.frame (.list items) out =
      if n.toNat = items.length then c.writeItems sink spot.field spot.frame 0 items out
      else out.fail .count (.otherCount r.kind r.expr.source n.toNat items.length)
  length : ∀ sink out out', c.encodeRecord sink name context (some record) out = .done () out' →
    n = items.length ∧ Expr.IsCount n
  fails : ¬Expr.IsCount n → ∃ err,
    r.expr.evalCount spot.frame.scope = .error (.error err) ∧ ∀ sink out,
      c.writeValue sink spot.field (some r) spot.frame (.list items) out =
        out.fail .expression (.expression err)

theorem readsCount_of_countsAs {name : String} {context : Option Context} {levels : Nat}
    {src : Source} {path : List PathStep} {m : Moment}
    (h : c.Meets (.ofRecord name context levels src) path m) (hlisted : m.listed = true)
    (hr : m.field.repetition = some r) (hcounts : r.expr.CountsAs m.frame.scope n) :
    c.ReadsCount name context levels src path m r n where
  counts := hcounts
  elements hn := readAt_counted hlisted hr (hcounts.count hn)
  length v s' hread := by
    obtain ⟨items, rfl, hcount⟩ := evalCount_of_readAt hlisted hr hread
    exact ⟨items, rfl, hcounts.eq_of_ok hcount⟩
  fails hno := by
    obtain ⟨err, herr⟩ := hcounts.exists_error hno
    obtain ⟨e, s', hfailed⟩ := decodeRecord_of_error h hlisted hr herr
    exact ⟨err, e, s', herr, hfailed⟩

theorem writesCount_of_countsAs (hstrict : c.options.lenient = false) {name : String}
    {context : Option Context} {record : Record} {path : List PathStep} {spot : Spot}
    {items : List Value} (h : c.Within (.ofRecord name context record) path spot)
    (hr : spot.repeated = some r) (hvalue : spot.value = .list items)
    (hcounts : r.expr.CountsAs spot.frame.scope n) :
    c.WritesCount name context record spot r items n where
  counts := hcounts
  elements hn sink out :=
    writeValue_of_count hstrict (hcounts.count hn) sink spot.field items out
  length sink out out' hdone := by
    have hrecord : c.writeValue sink ⟨"", ⟨name, .composite⟩, none, none⟩ none ⟨[], context⟩
        record.toValue out = .done () out' := by
      rw [← hdone]
      exact (encodeRecord_eq_writeValue (t := ⟨name, .composite⟩) c sink rfl context record out).symm
    obtain ⟨out₁, out₂, hlist⟩ := h.done hrecord
    rw [hr, hvalue] at hlist
    exact hcounts.eq_of_ok (evalCount_of_writeValue hstrict hlist)
  fails hno := by
    obtain ⟨err, herr⟩ := hcounts.exists_error hno
    exact ⟨err, herr, fun sink out => writeValue_of_error hstrict herr sink spot.field items out⟩

/-- Counts that are taken from fields are exact. Expressions see every whole number as the same number,
and records and lists with the same parts in the same places. Where a list is read, or written by a
strict codec, a term that names an earlier field or a part of it has its value; and if the count has
the value of a field, it is the number in the field, or fails with an error if that can be no count. -/
theorem field_counts_exact {s : Schema} {options : CodecOptions} {c : Codec} (hs : s.Accepted)
    (hc : compile (some s) options = .ok c) :
    (∀ x : Scalar, x.kind ≠ .f32 → x.kind ≠ .f64 → x.kind ≠ .bool →
      ∃ n, x.toInt? = some n ∧ x.toDatum.toInt? = some n) ∧
    (Value.null.toDatum = .null ∧
      (∀ items : List Value, (Value.list items).toDatum = .list .variable (items.map (·.toDatum))) ∧
      (∀ (t : RecordType) (slots : List Value), (t.fields.map (·.id)).Nodup →
        slots.length = t.fields.length → (Value.record t slots).toDatum =
          .object ((t.fields.map (·.id)).zip (slots.map (·.toDatum)))) ∧
      ∀ (v : Value) (path : List PathStep), v.toDatum.at? path = (v.at? path).map (·.toDatum)) ∧
    (∀ name context levels src path m r,
      c.Meets (.ofRecord name context levels src) path m → m.listed = true →
      m.field.repetition = some r →
      ∃ view, c.ReadView (.ofRecord name context levels src) path m view ∧
        (∀ term x steps v, r.expr.meaning = some term.eval →
          Expr.Accesses m.frame.scope term x steps → view.Sees x steps v →
          r.expr.eval m.frame.scope = .ok v.toDatum) ∧
        ∀ (w : Scalar) n, r.expr.eval m.frame.scope = .ok w.toDatum → w.toInt? = some n →
          c.ReadsCount name context levels src path m r n) ∧
    (c.options.lenient = false → ∀ name context record path spot r items,
      c.Within (.ofRecord name context record) path spot → spot.repeated = some r →
      spot.value = .list items →
      ∃ view, c.WriteView (.ofRecord name context record) path spot view ∧
        (∀ term x steps v, r.expr.meaning = some term.eval →
          Expr.Accesses spot.frame.scope term x steps → view.Sees x steps v →
          r.expr.eval spot.frame.scope = .ok v.toDatum) ∧
        ∀ (w : Scalar) n, r.expr.eval spot.frame.scope = .ok w.toDatum → w.toInt? = some n →
          c.WritesCount name context record spot r items n) := by
  have hl := linked_of_compile hs hc
  have hnamed := allNamed_of_compile hs hc
  refine ⟨?_, ⟨rfl, ?_, ?_, Value.at?_toDatum⟩, ?_, ?_⟩
  · intro x hsingle hdouble hbool
    obtain ⟨n, hn⟩ := Scalar.exists_toInt? hsingle hdouble hbool
    exact ⟨n, hn, Scalar.toInt?_toDatum hn⟩
  · intro items
    rw [Value.toDatum, Value.itemData_eq_map]
  · intro t slots hdistinct hlength
    rw [Value.toDatum, Value.itemData_eq_map, collectMembers_of_nodup]
    rw [List.map_fst_zip (by simp [hlength])]
    exact hdistinct
  · intro name context levels src path m r hmeets hlisted hr
    obtain ⟨view, hview, hshows⟩ := hmeets.exists_view hl hnamed rfl hlisted
    obtain ⟨-, m₀, -, -, ht, -⟩ := hview.own
    refine ⟨view, hview, ?_, ?_⟩
    · intro term x steps v hterm haccess hsees
      exact hshows.eval_eq (hnamed _ _ ht) hterm haccess hsees
    · intro w n heval hn
      exact readsCount_of_countsAs hmeets hlisted hr (Expr.countsAs_of_eval heval hn)
  · intro hstrict name context record path spot r items hwithin hr hvalue
    obtain ⟨view, hview, hshows⟩ := hwithin.exists_view hl hnamed rfl hr
    obtain ⟨-, s₀, -, -, -, -, -, ht, -⟩ := hview.own
    refine ⟨view, hview, ?_, ?_⟩
    · intro term x steps v hterm haccess hsees
      exact hshows.eval_eq (hnamed _ _ ht) hterm haccess hsees
    · intro w n heval hn
      exact writesCount_of_countsAs hstrict hwithin hr hvalue (Expr.countsAs_of_eval heval hn)

/-- What cannot be read because of a number that can be no count is a list. -/
theorem Unreadable.evalCount_eq {m : Moment} {kind : DecodeErrorKind} {cause : Cause}
    (h : c.Unreadable m kind cause) (hn : cause.number? = some n) :
    ∃ r err, m.listed = true ∧ m.field.repetition = some r ∧
      r.expr.evalCount m.frame.scope = .error (.error err) ∧ err.number? = some n := by
  have hshortage : m.source.shortage.number? = none := by
    unfold Source.shortage
    split <;> rfl
  cases h with
  | scalar | room =>
    rw [hshortage] at hn
    cases hn
  | condition _ _ heval =>
    rw [Cause.number?, Expr.number?_of_evalBool heval] at hn
    cases hn
  | count hlisted hr heval => exact ⟨_, _, hlisted, hr, heval, hn⟩
  | emptyElements => cases hn

/-- A root record with minus one in the field of a nested record that counts its last list. -/
def negativeCount (root nested : RecordType) : Record :=
  ⟨root, [.scalar (.u64 0), .record nested [.scalar (.i8 (-1)), .list []],
    .list [.scalar (.u8 7)]]⟩

/-- In a nested record a list is as long as the root says, and after it a list is as long as the nested
record says. The first is read with 2 to the power of 63 in an unsigned field, and the second written
with minus one in a signed one. -/
theorem field_counts_exact_no_counts :
    ∃ s c, Schema.parse ("types:\n  P:\n  - id: k\n    type: i8\n  - id: ys\n    type: '[]u8'\n" ++
        "    repeat: Count(_root.n)\nitems:\n- id: n\n  type: u64\n- id: p\n  type: P\n" ++
        "- id: zs\n  type: '[]u8'\n  repeat: Count(p.k)").toUTF8.toList = .ok s ∧
      compile (some s) .strict = .ok c ∧
      (∃ path m r view, PathStep.render path = "p.ys" ∧
        c.Meets (.ofRecord c.schema.root.name none (c.depthLimit 9)
          (.ofBytes [0, 0, 0, 0, 0, 0, 0, 128, 5])) path m ∧
        m.field.repetition = some r ∧
        r.expr.eval m.frame.scope = .ok (Scalar.u64 0x8000000000000000).toDatum ∧
        c.ReadView (.ofRecord c.schema.root.name none (c.depthLimit 9)
          (.ofBytes [0, 0, 0, 0, 0, 0, 0, 128, 5])) path m view ∧
        c.ReadsCount c.schema.root.name none (c.depthLimit 9)
          (.ofBytes [0, 0, 0, 0, 0, 0, 0, 128, 5]) path m r 0x8000000000000000) ∧
      ∃ t record path spot r items view, s.declared? "P" = some t ∧
        record = negativeCount s.root t ∧ PathStep.render path = "zs" ∧
        c.Within (.ofRecord c.schema.root.name none record) path spot ∧
        spot.repeated = some r ∧ spot.value = .list items ∧
        r.expr.eval spot.frame.scope = .ok (Scalar.i8 (-1)).toDatum ∧
        c.WriteView (.ofRecord c.schema.root.name none record) path spot view ∧
        c.WritesCount c.schema.root.name none record spot r items (-1) := by
  refine exists_of_parse (fun c => (c.schema.declared? "P").bind fun t =>
    (failure? (c.decodeType c.schema.root.name none
      (.ofBytes [0, 0, 0, 0, 0, 0, 0, 128, 5])).result).bind fun e =>
        (failure? (c.encode (some (negativeCount c.schema.root t)))).bind fun e' =>
          ((c.under ⟨true, none⟩).encode
            (some (negativeCount c.schema.root t))).toOption.map fun b =>
              (PathStep.render e.path, e.cause.number?, PathStep.render e'.path, e'.cause.number?))
    ("p.ys", some 0x8000000000000000, "zs", some (-1)) (by decide +kernel) ?_
  intro s c hs hc h
  have hschema : c.schema = s := by rw [compile_ok hc]
  obtain ⟨t, ht, h⟩ := Option.bind_eq_some_iff.mp h
  obtain ⟨e, he, h⟩ := Option.bind_eq_some_iff.mp h
  obtain ⟨e', he', h⟩ := Option.bind_eq_some_iff.mp h
  obtain ⟨b, hb, h⟩ := Option.map_eq_some_iff.mp h
  simp only [Prod.mk.injEq] at h
  obtain ⟨hpath, hnumber, hpath', hnumber'⟩ := h
  have haccepted : s.Accepted := .of_parse hs
  obtain ⟨-, -, hreads, hwrites⟩ := field_counts_exact haccepted hc
  refine ⟨?_, ?_⟩
  · have hfailed := Pass.eq_failed_of_result (eq_error_of_failure? he)
    obtain ⟨m, hmeets, hwhy⟩ : ∃ m, c.Meets (.ofRecord c.schema.root.name none (c.depthLimit 9)
        (.ofBytes [0, 0, 0, 0, 0, 0, 0, 128, 5])) e.path m ∧ c.Unreadable m e.kind e.cause := by
      rcases stopsAtUnreadable_of_decodeType haccepted hc c.type?_root hfailed with
        hdeep | ⟨e₁, m, he₁, hmeets, hwhy, -⟩
      · cases hdeep
      · cases he₁
        exact ⟨m, hmeets, hwhy⟩
    obtain ⟨r, err, hlisted, hr, herr, hn⟩ := hwhy.evalCount_eq hnumber
    have heval := Expr.eval_of_number? (x := .u64 0x8000000000000000) herr hn rfl
    obtain ⟨view, hview, -, hcount⟩ := hreads _ _ _ _ _ m r hmeets hlisted hr
    exact ⟨e.path, m, r, view, hpath, hmeets, hr, heval, hview, hcount _ _ heval rfl⟩
  · have hloosens := loosens_encodeRecord c c.options ⟨true, none⟩ rfl .memory c.schema.root.name none
      (negativeCount c.schema.root t) .empty
    have hstrict := (c.encode_eq_written _).symm.trans (eq_error_of_failure? he')
    have hlenient := ((c.under ⟨true, none⟩).encode_eq_written _).symm.trans (eq_ok_of_toOption hb)
    cases hloosens.of_error_ok hstrict hlenient with
    | @error _ spot hwithin hfault =>
      generalize e'.kind = kind at hfault
      generalize e'.cause = cause at hfault hnumber'
      cases hfault with
      | other => cases hnumber'
      | @unknown r items err hr hitems herr =>
        have heval := Expr.eval_of_number? (x := .i8 (-1)) herr hnumber' rfl
        have hoptions : c.options.lenient = false := by rw [compile_ok hc]; rfl
        obtain ⟨view, hview, -, hcount⟩ := hwrites hoptions _ _ _ _ spot r items hwithin hr hitems
        exact ⟨t, _, e'.path, spot, r, items, view, hschema ▸ ht, by rw [hschema], hpath', hwithin, hr,
          hitems, heval, hview, hcount _ _ heval rfl⟩

end Codec

end Savefile
