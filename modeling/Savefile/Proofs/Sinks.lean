import Savefile.Proofs.Writer

/-!
# Sinks that fail

A writer does the same for every sink until the sink does not accept a chunk: it offers chunks one
after another, each only once all before it were accepted. So what a record is written as is laid
down in a script of offers that does not mention the sink, and what a failing sink has taken is a
beginning of what any other sink would have taken.
-/
namespace Savefile

/-- The sink takes the whole chunk and gives no reason not to go on. -/
def Sink.Accepts (sink : Sink) (out : Output) (chunk : List UInt8) : Prop :=
  chunk.length ≤ (sink out chunk).taken ∧ (sink out chunk).refusal = none

/-- Why a sink does not accept a chunk: its own reason, or that it took too little. -/
def Sink.objection (sink : Sink) (out : Output) (chunk : List UInt8) : Cause :=
  ((sink out chunk).refusal.map Cause.refused).getD .shortWrite

theorem Sink.accepts_memory (out : Output) (chunk : List UInt8) :
    Sink.memory.Accepts out chunk := ⟨Nat.le_refl _, rfl⟩

namespace Output

/-- The output once a sink has taken a chunk. -/
def add (out : Output) (chunk : List UInt8) : Output :=
  { out with chunks := chunk :: out.chunks, count := out.count + chunk.length }

variable {sink : Sink} {out : Output} {chunk : List UInt8}

theorem write_of_accepts (h : sink.Accepts out chunk) :
    out.write sink chunk = .done () (out.add chunk) := by
  have htaken : min (sink out chunk).taken chunk.length = chunk.length := Nat.min_eq_right h.1
  simp only [write, h.2, htaken, Nat.lt_irrefl, if_false, List.take_length, add]

theorem write_of_not_accepts (h : ¬sink.Accepts out chunk) :
    out.write sink chunk = .failed (sink.objection out chunk)
      (out.add (chunk.take (sink out chunk).taken)) := by
  have hadd : out.add (chunk.take (sink out chunk).taken) =
      { out with
        chunks := chunk.take (min (sink out chunk).taken chunk.length) :: out.chunks
        count := out.count + min (sink out chunk).taken chunk.length } := by
    rw [add, List.length_take, List.take_eq_take_min]
  rw [hadd]
  unfold write Sink.objection
  cases hrefusal : (sink out chunk).refusal with
  | some reason =>
    simp only [hrefusal]
    rfl
  | none =>
    have hshort : min (sink out chunk).taken chunk.length < chunk.length := by
      have hless : ¬chunk.length ≤ (sink out chunk).taken := fun hle => h ⟨hle, hrefusal⟩
      omega
    simp only [hrefusal, hshort, if_true]
    rfl

end Output

/-- The kind of the failure if a sink does not accept a chunk. Only if the chunk is that of a scalar,
the sink's own error is asked whether it wraps one about a value. -/
def Sink.failureKind (sink : Sink) (out : Output) (chunk : List UInt8) (scalar : Bool) :
    EncodeErrorKind :=
  if scalar && (sink out chunk).refusal.any (·.wrapsMisfit) then .invalid else .sink

theorem Sink.kindOf_objection (sink : Sink) (out : Output) (chunk : List UInt8) (scalar : Bool) :
    (sink.objection out chunk).kindOf scalar = sink.failureKind out chunk scalar := by
  unfold objection failureKind Cause.kindOf
  cases (sink out chunk).refusal <;> simp [Cause.wrapsMisfit]

/-- A chunk that is offered to a sink, when the sink has taken what is before it, and what becomes of
an error then. -/
structure Offer where
  out : Output
  chunk : List UInt8
  /-- It is the chunk of a scalar, and not of the room that an absent value keeps. -/
  scalar : Bool
  label : EncodeError → EncodeError

namespace Offer

/-- The offer is that of a scalar or of some zeros, and an error is still that of the sink once it is
labelled. -/
structure Sound (order : ByteOrder) (o : Offer) : Prop where
  scalar : o.scalar = true → ∃ x : Scalar, o.chunk = x.encode order
  room : o.scalar = false → ∃ n ≤ zeroBlock, o.chunk = List.replicate n 0
  kind : ∀ e, (o.label e).kind = e.kind
  cause : ∀ e, (o.label e).cause = e.cause

/-- The offer as the record around sees it. -/
def within (label : EncodeError → EncodeError) (o : Offer) : Offer :=
  { o with label := fun e => label (o.label e) }

theorem Sound.within {order : ByteOrder} {o : Offer} (h : o.Sound order) {step : PathStep}
    {label : EncodeError → EncodeError} (hlabel : EncodeError.IsLabel step label) :
    (o.within label).Sound order :=
  ⟨h.scalar, h.room, fun e => (hlabel.kind _).trans (h.kind e),
    fun e => (hlabel.cause _).trans (h.cause e)⟩

end Offer

/-- What a writer does for any sink: it makes offers while they are accepted, and then comes to its
end. -/
def runScript (sink : Sink) (finish : Encoding) : List Offer → Encoding
  | [] => finish
  | o :: os =>
    match (o.out.write sink o.chunk).toEncoding o.scalar with
    | .done _ _ => runScript sink finish os
    | .failed stop out => .failed (stop.map o.label) out

/-- Each offer is made when just the chunks before it have been taken, and so is the end. -/
inductive Continues (order : ByteOrder) : List (List UInt8) → List Offer → Encoding → Prop
  | finish (pass : Encoding) : Continues order pass.state.chunks [] pass
  | offer {o : Offer} {os : List Offer} {finish : Encoding} : o.Sound order →
      Continues order (o.chunk :: o.out.chunks) os finish →
      Continues order o.out.chunks (o :: os) finish

section Scripts

variable {order : ByteOrder} {sink : Sink} {taken : List (List UInt8)} {offers : List Offer}
variable {finish : Encoding}

theorem runScript_accepted (h : ∀ o ∈ offers, sink.Accepts o.out o.chunk) :
    runScript sink finish offers = finish := by
  induction offers with
  | nil => rfl
  | cons o os ih =>
    obtain ⟨ho, hos⟩ := List.forall_mem_cons.mp h
    rw [runScript, Output.write_of_accepts ho]
    exact ih hos

/-- A script ends as it should, or at the first offer that is not accepted. -/
theorem runScript_cases (sink : Sink) (finish : Encoding) (offers : List Offer) :
    (∀ o ∈ offers, sink.Accepts o.out o.chunk) ∨
      ∃ before o after, offers = before ++ o :: after ∧
        (∀ o' ∈ before, sink.Accepts o'.out o'.chunk) ∧ ¬sink.Accepts o.out o.chunk ∧
        runScript sink finish offers =
          .failed (.error (o.label
              ⟨sink.failureKind o.out o.chunk o.scalar, "", [], sink.objection o.out o.chunk⟩))
            (o.out.add (o.chunk.take (sink o.out o.chunk).taken)) := by
  induction offers with
  | nil => exact .inl (by simp)
  | cons o os ih =>
    by_cases ho : sink.Accepts o.out o.chunk
    · rcases ih with hall | ⟨before, bad, after, rfl, hbefore, hbad, hrun⟩
      · exact .inl (List.forall_mem_cons.mpr ⟨ho, hall⟩)
      · refine .inr ⟨o :: before, bad, after, rfl, List.forall_mem_cons.mpr ⟨ho, hbefore⟩, hbad, ?_⟩
        rw [runScript, Output.write_of_accepts ho]
        exact hrun
    · refine .inr ⟨[], o, os, rfl, by simp, ho, ?_⟩
      rw [runScript, Output.write_of_not_accepts ho, Delivery.toEncoding_failed,
        Sink.kindOf_objection]
      rfl

/-- What has been taken when an offer is made. -/
theorem Continues.taken_eq (h : Continues order taken offers finish) :
    ∀ before o after, offers = before ++ o :: after →
      o.Sound order ∧ o.out.chunks = (before.map (·.chunk)).reverse ++ taken := by
  induction h with
  | finish => simp
  | @offer o os _ hsound _ ih =>
    intro before o' after hsplit
    cases before with
    | nil =>
      cases hsplit
      exact ⟨hsound, rfl⟩
    | cons first before =>
      obtain ⟨rfl, hrest⟩ := List.cons.inj hsplit
      obtain ⟨hsound', htaken⟩ := ih before o' after hrest
      refine ⟨hsound', ?_⟩
      rw [htaken]
      simp

theorem Continues.finish_eq (h : Continues order taken offers finish) :
    finish.state.chunks = (offers.map (·.chunk)).reverse ++ taken := by
  induction h with
  | finish => rfl
  | offer _ _ ih =>
    rw [ih]
    simp

/-- Labelling leaves alone when offers are made. -/
theorem Continues.within {step : PathStep} {label : EncodeError → EncodeError}
    (hlabel : EncodeError.IsLabel step label) (h : Continues order taken offers finish)
    {os : List Offer} {last : Encoding} (hrest : Continues order finish.state.chunks os last) :
    Continues order taken (offers.map (.within label) ++ os) last := by
  induction h with
  | finish => exact hrest
  | @offer o _ _ hsound _ ih =>
    exact Continues.offer (o := o.within label) (hsound.within hlabel) (ih hrest)

/-- A labelled script goes on with what follows it, once all its offers are accepted. -/
theorem runScript_within (label : EncodeError → EncodeError) (offers os : List Offer)
    (finish last : Encoding) (q : Writer)
    (hdone : ∀ out, finish = .done () out → q out = runScript sink last os)
    (hfailed : ∀ stop out, finish = .failed stop out →
      runScript sink last os = .failed (stop.map label) out) :
    Encoding.andThen label q (runScript sink finish offers) =
      runScript sink last (offers.map (.within label) ++ os) := by
  induction offers with
  | nil =>
    cases finish with
    | done u out => exact hdone out rfl
    | failed stop out => exact (hfailed stop out rfl).symm
  | cons o offers ih =>
    simp only [List.map_cons, List.cons_append, runScript, Offer.within] at ih ⊢
    cases (o.out.write sink o.chunk).toEncoding o.scalar with
    | done u out => exact ih
    | failed stop out => cases stop <;> rfl

theorem Continues.bytes_eq (h : Continues order [] offers finish) :
    finish.state.bytes = (offers.map (·.chunk)).flatten := by
  rw [Output.bytes, h.finish_eq]
  simp

/-- How writing to a sink ends for which the chunks of the offers are meant. -/
structure Delivers (sink : Sink) (offers : List Offer) (pass : Encoding) : Prop where
  begins : pass.state.bytes <+: (offers.map (·.chunk)).flatten
  done_iff : (∃ out, pass = .done () out) ↔ ∀ o ∈ offers, sink.Accepts o.out o.chunk
  whole : ∀ out, pass = .done () out → out.bytes = (offers.map (·.chunk)).flatten
  /-- Writing stops at the first chunk that is not accepted, with all chunks before it taken and as
  much of it as the sink took. -/
  stopped : ∀ stop out, pass = .failed stop out →
    ∃ e before o after, stop = .error e ∧ offers = before ++ o :: after ∧
      (∀ o' ∈ before, sink.Accepts o'.out o'.chunk) ∧ ¬sink.Accepts o.out o.chunk ∧
      out.chunks = o.chunk.take (sink o.out o.chunk).taken :: (before.map (·.chunk)).reverse ∧
      e.cause = sink.objection o.out o.chunk ∧ e.kind = sink.failureKind o.out o.chunk o.scalar
  /-- The failure is one of the sink, unless the sink's error wraps one about a value. -/
  plain : (∀ refusal, sink.Gives refusal → refusal.wrapsMisfit = false) →
    ∀ e out, pass = .failed (.error e) out → e.kind = .sink

theorem Sink.failureKind_of_plain {sink : Sink}
    (h : ∀ refusal, sink.Gives refusal → refusal.wrapsMisfit = false) (out : Output)
    (chunk : List UInt8) (scalar : Bool) : sink.failureKind out chunk scalar = .sink := by
  unfold failureKind
  cases hrefusal : (sink out chunk).refusal with
  | none => simp
  | some refusal => simp [h refusal ⟨out, chunk, hrefusal⟩]

theorem Continues.delivers {last : Output} (h : Continues order [] offers (.done () last))
    (sink : Sink) :
    Delivers sink offers (runScript sink (.done () last) offers) := by
  have hwhole := h.bytes_eq
  rcases runScript_cases sink (.done () last) offers with
    hall | ⟨before, o, after, rfl, hbefore, hbad, hrun⟩
  · rw [runScript_accepted hall]
    refine ⟨hwhole ▸ List.prefix_rfl, iff_of_true ⟨last, rfl⟩ hall, ?_, ?_, ?_⟩
    · intro out hout
      cases hout
      exact hwhole
    · intro stop out hout
      cases hout
    · intro _ e out hout
      cases hout
  · obtain ⟨hsound, htaken⟩ := h.taken_eq before o after rfl
    rw [List.append_nil] at htaken
    rw [hrun]
    refine ⟨?_, iff_of_false ?_ ?_, ?_, ?_, ?_⟩
    · -- The sink took the chunks before this one and a beginning of this one.
      have hbytes : (o.out.add (o.chunk.take (sink o.out o.chunk).taken)).bytes =
          (before.map (·.chunk)).flatten ++ o.chunk.take (sink o.out o.chunk).taken := by
        simp [Output.bytes, Output.add, htaken]
      rw [Pass.state, hbytes, List.map_append, List.flatten_append, List.map_cons,
        List.flatten_cons, List.prefix_append_right_inj]
      exact (List.take_prefix _ _).trans (List.prefix_append _ _)
    · rintro ⟨out, hout⟩
      cases hout
    · intro hall
      exact hbad (hall o (by simp))
    · intro out hout
      cases hout
    · intro stop out hout
      cases hout
      exact ⟨_, before, o, after, rfl, rfl, hbefore, hbad, by rw [Output.add, htaken],
        hsound.cause _, hsound.kind _⟩
    · intro hplain e out hout
      cases hout
      exact (hsound.kind _).trans (Sink.failureKind_of_plain hplain _ _ _)

/-- A note in the end makes no difference to the sink. -/
theorem Delivers.note {pass : Encoding} (h : Delivers sink offers pass) (note : Output → Note) :
    Delivers sink offers
      (Encoding.andThen id (fun out => .done () (out.note (note out))) pass) := by
  cases pass with
  | failed stop out => cases stop <;> exact h
  | done u out =>
    refine ⟨h.begins, iff_of_true ⟨_, rfl⟩ (h.done_iff.mp ⟨out, rfl⟩), ?_, ?_, ?_⟩
    · intro out' hout
      cases hout
      exact h.whole out rfl
    · intro stop out' hout
      cases hout
    · intro _ e out' hout
      cases hout

end Scripts

namespace Writer

/-- What the writer does is laid down in a script, whatever the sink. -/
def Scripted (order : ByteOrder) (w : Sink → Writer) : Prop :=
  ∀ out, ∃ offers finish, Continues order out.chunks offers finish ∧
    ∀ sink, w sink out = runScript sink finish offers

namespace Scripted

variable {order : ByteOrder}

/-- A writer that leaves the sink alone. -/
theorem of_finish {w : Sink → Writer} (finish : Writer) (h : ∀ sink, w sink = finish)
    (hchunks : ∀ out, (finish out).state.chunks = out.chunks) : Scripted order w := by
  intro out
  refine ⟨[], finish out, ?_, fun sink => by rw [h]; rfl⟩
  rw [← hchunks]
  exact .finish _

theorem writeAll (scalar : Bool) (chunks : List (List UInt8))
    (hsound : ∀ out, ∀ chunk ∈ chunks, Offer.Sound order ⟨out, chunk, scalar, id⟩) :
    Scripted order fun sink out => (out.writeAll sink chunks).toEncoding scalar := by
  induction chunks with
  | nil => exact of_finish (fun out => .done () out) (fun _ => rfl) fun _ => rfl
  | cons chunk chunks ih =>
    intro out
    obtain ⟨offers, finish, hcontinues, hrun⟩ :=
      ih (fun out chunk' hchunk' => hsound out chunk' (List.mem_cons_of_mem _ hchunk'))
        (out.add chunk)
    have hoffer : Continues order out.chunks (⟨out, chunk, scalar, id⟩ :: offers) finish :=
      .offer (o := ⟨out, chunk, scalar, id⟩) (hsound out chunk (List.mem_cons_self ..)) hcontinues
    refine ⟨⟨out, chunk, scalar, id⟩ :: offers, finish, hoffer, ?_⟩
    intro sink
    dsimp only
    rw [Output.writeAll, runScript]
    by_cases haccepts : sink.Accepts out chunk
    · rw [Output.write_of_accepts haccepts]
      exact hrun sink
    · rw [Output.write_of_not_accepts haccepts]
      rfl

theorem scalar (x : Scalar) :
    Scripted order fun sink out => (out.write sink (x.encode order)).toEncoding true := by
  simp only [Output.write_eq_writeAll]
  apply writeAll
  intro out chunk hchunk
  rw [List.mem_singleton] at hchunk
  refine ⟨fun _ => ⟨x, hchunk⟩, ?_, fun _ => rfl, fun _ => rfl⟩
  intro h
  cases h

theorem room (n : Nat) :
    Scripted order fun sink out => (out.writeAll sink (zeroChunks n)).toEncoding false := by
  apply writeAll
  intro out chunk hchunk
  refine ⟨?_, fun _ => zeros_of_mem_zeroChunks hchunk, fun _ => rfl, fun _ => rfl⟩
  intro h
  cases h

theorem andThen {step : PathStep} {label : EncodeError → EncodeError}
    (hlabel : EncodeError.IsLabel step label) {p q : Sink → Writer} (hp : Scripted order p)
    (hq : Scripted order q) : Scripted order fun sink => Writer.andThen label (p sink) (q sink) := by
  intro out
  obtain ⟨offers, finish, hcontinues, hrun⟩ := hp out
  simp only [Writer.andThen, hrun]
  cases hfinish : finish with
  | failed stop out' =>
    -- The script ends here, with the error labelled.
    refine ⟨offers.map (.within label) ++ [], .failed (stop.map label) out', ?_, ?_⟩
    · apply hcontinues.within hlabel
      rw [hfinish]
      exact .finish (.failed (stop.map label) out')
    · intro sink
      apply runScript_within
      · intro out'' h
        cases h
      · intro e'' out'' h
        cases h
        rfl
  | done u out' =>
    -- What comes next starts from the output that the script leaves, whatever the sink.
    obtain ⟨os, last, hrest, hrun'⟩ := hq out'
    refine ⟨offers.map (.within label) ++ os, last, ?_, ?_⟩
    · apply hcontinues.within hlabel
      rw [hfinish]
      exact hrest
    · intro sink
      apply runScript_within
      · intro out'' h
        cases h
        exact hrun' sink
      · intro e'' out'' h
        cases h

theorem law (c : Codec) (options : CodecOptions) :
    Law c (fun _ => c.schema.order) (fun _ => options) (fun sink => sink) fun _ w =>
      Scripted c.schema.order w where
  scalar _ := scalar
  room _ := room
  refusing _ e _ _ := of_finish (fun out => .failed (.error e) out) (fun _ => rfl) fun _ => rfl
  noted note _ h := fun out => h (out.note (note out.count))
  counted := by
    intro spot r items p _ _ h
    unfold counted
    cases (c.under options).countStop? r spot.frame.scope items.length with
    | none => exact h
    | some stop => exact of_finish (fun out => .failed stop out) (fun _ => rfl) fun _ => rfl
  inside _ hlabel hp hq := hp.andThen hlabel hq

end Scripted

end Writer

namespace Codec

open Writer

/-- What is written of a record is laid down in a script that starts with nothing taken. -/
theorem exists_script (c : Codec) (name : String) (context : Option Context) (r : Option Record) :
    ∃ offers finish, Continues c.schema.order [] offers finish ∧
      ∀ sink, c.encodeRecord sink name context r .empty = runScript sink finish offers := by
  cases r with
  | none => exact ⟨[], _, .finish (refuseRecord name none .empty), fun _ => rfl⟩
  | some r => exact (Scripted.law c c.options).encodeRecord name context r .empty

/-- The note that is taken of a record comes after everything else. -/
theorem encodeType_eq_andThen (c : Codec) (sink : Sink) (name : String) (context : Option Context)
    (r : Option Record) :
    c.encodeType sink name context r =
      Encoding.andThen id (fun out => .done () (out.note (.encodedRecord name out.count)))
        (c.encodeRecord sink name context r .empty) := by
  unfold encodeType
  cases c.encodeRecord sink name context r .empty with
  | done _ out => rfl
  | failed stop out => cases stop <;> rfl

theorem encodeTo_eq_andThen (c : Codec) (sink : Sink) (r : Option Record) :
    c.encodeTo sink r =
      Encoding.andThen id
        (fun out => .done () (out.note (.encodedRecord c.schema.root.name out.count)))
        (c.encodeRecord sink c.schema.root.name none r .empty) :=
  c.encodeType_eq_andThen sink c.schema.root.name none r

end Codec

end Savefile
