import Savefile.Proofs.Depth
import Savefile.Proofs.Obtained
import Savefile.Proofs.Path
import Savefile.Proofs.Width

/-!
# What an error of reading points at

Reading fails at one value, for a reason of that value: its bytes are missing, its condition or its
count cannot be evaluated, or it is a long list whose elements take no input. The error names the
path to that value and the position at which everything before the value had been read.
-/
namespace Savefile

/-- Why too little input is left for a value. -/
def Source.shortage (s : Source) : Cause :=
  if s.rest.isEmpty then .endOfInput else .endInsideValue

/-- A schema that was put together has a name for its root. -/
theorem Schema.root_name_of_build {order : ByteOrder} {rootName : String} {types : List RecordType}
    {items : List Field} {s : Schema} (h : build order rootName types items = .ok s) :
    s.root.name = if rootName.isEmpty then defaultRootName else rootName := by
  rw [(build_eq_ok_iff.mp h).1]

namespace Reader

variable {α β : Type}

theorem taking_failed {n : Nat} {make : List UInt8 → α} {s s' : Source} {stop : DecodeStop}
    (h : taking n make s = .failed stop s') :
    s.rest.length < n ∧ stop = .error ⟨.truncated, "", [], s.position, s.shortage⟩ := by
  by_cases hn : n ≤ s.rest.length
  · rw [taking, Source.take_of_le hn] at h
    cases h
  · rw [taking, Source.take_of_short (Nat.lt_of_not_le hn)] at h
    cases h
    exact ⟨Nat.lt_of_not_le hn, rfl⟩

/-- What takes no input is the same wherever it is read, and takes none there either. -/
def Idle (p : Reader α) : Prop :=
  ∀ s v s', p s = .done v s' → ∃ b, s.Past s' b ∧
    (b = [] → ∀ x, ∃ x', p x = .done v x' ∧ x.Past x' [])

namespace Idle

theorem taking (n : Nat) (make : List UInt8 → α) : Idle (taking n make) := by
  intro s v s' h
  obtain ⟨b, rfl, rfl, hb⟩ := taking_done h
  refine ⟨b, hb, ?_⟩
  rintro rfl x
  exact taking_append make (s := x) (b := []) rfl

theorem andThen {p : Reader α} {q : α → Reader β} (hp : Idle p) (hq : ∀ v, Idle (q v)) :
    Idle (p.andThen q) := by
  intro s w s₂ h
  unfold Reader.andThen at h
  cases hps : p s with
  | failed e s₁ => simp [hps] at h
  | done v s₁ =>
    simp only [hps] at h
    obtain ⟨b, hb, hidle⟩ := hp s v s₁ hps
    obtain ⟨b', hb', hidle'⟩ := hq v s₁ w s₂ h
    refine ⟨b ++ b', hb.trans hb', ?_⟩
    intro hnil x
    obtain ⟨rfl, rfl⟩ := List.append_eq_nil_iff.mp hnil
    obtain ⟨x₁, hx, hpast⟩ := hidle rfl x
    obtain ⟨x₂, hx', hpast'⟩ := hidle' rfl x₁
    refine ⟨x₂, ?_, hpast.trans hpast'⟩
    rw [Reader.andThen, hx]
    exact hx'

theorem labelled (label : DecodeError → DecodeError) {p : Reader α} (hp : Idle p) :
    Idle (p.labelled label) := by
  intro s v s' h
  have hps : p s = .done v s' := by
    unfold Reader.labelled at h
    cases hps : p s <;> simp_all
  obtain ⟨b, hb, hidle⟩ := hp s v s' hps
  refine ⟨b, hb, ?_⟩
  intro hnil x
  obtain ⟨x', hx, hpast⟩ := hidle hnil x
  refine ⟨x', ?_, hpast⟩
  rw [Reader.labelled, hx]

theorem noted (note : Int → α → Note) {p : Reader α} (hp : Idle p) : Idle (p.noted note) := by
  intro s v s' h
  unfold Reader.noted at h
  cases hps : p s with
  | failed e s₁ => simp [hps] at h
  | done v₁ s₁ =>
    simp only [hps, Pass.done.injEq] at h
    obtain ⟨rfl, rfl⟩ := h
    obtain ⟨b, hb, hidle⟩ := hp s v₁ s₁ hps
    refine ⟨b, hb.note _, ?_⟩
    intro hnil x
    obtain ⟨x', hx, hpast⟩ := hidle hnil x
    refine ⟨_, ?_, hpast.note (note x.position v₁)⟩
    rw [Reader.noted, hx]

theorem consuming (required : Prop) [Decidable required] (cause : Cause) {p : Reader α}
    (hp : Idle p) : Idle (p.consuming required cause) := by
  intro s v s' h
  unfold Reader.consuming at h
  cases hps : p s with
  | failed e s₁ => simp [hps] at h
  | done v₁ s₁ =>
    simp only [hps] at h
    split at h
    · cases h
    · rename_i hguard
      cases h
      obtain ⟨b, hb, hidle⟩ := hp s v s' hps
      refine ⟨b, hb, ?_⟩
      intro hnil x
      -- It took no input and was not refused, so none was required.
      have hfree : ¬required := fun hrequired => by
        have hne := hb.ne_nil_of_position fun hpos => hguard ⟨hrequired, hpos⟩
        exact hne hnil
      obtain ⟨x', hx, hpast⟩ := hidle hnil x
      refine ⟨x', ?_, hpast⟩
      rw [Reader.consuming, hx]
      exact if_neg fun hboth => hfree hboth.1

theorem law : Law (fun {α} (p _ : Reader α) => Idle p) where
  done v := fun s _ _ h => by
    cases h
    exact ⟨[], .refl s, fun _ x => ⟨x, rfl, .refl x⟩⟩
  taking := taking
  failing kind cause := fun _ _ _ h => by cases h
  faulting _ := fun _ _ _ h => by cases h
  andThen := andThen
  labelled _ h := h.labelled _
  noted note _ _ h := h.noted note
  consuming required _ cause _ _ h := h.consuming required cause

/-- If nothing moves where the reader stands, then nothing moved where it stood before. -/
theorem position_eq {p : Reader α} (hp : Idle p) {s s' x x' : Source} {v w : α}
    (hx : p x = .done v x') (hsame : x'.position = x.position) (hseek : x.seekable = s.seekable)
    (hs : p s = .done w s') : s'.position = s.position := by
  obtain ⟨b, hb, hidle⟩ := hp x v x' hx
  obtain ⟨b', hb', -⟩ := hp s w s' hs
  cases hcan : s.seekable with
  | false =>
    rw [Source.position, Source.position, hb'.seekable, hcan]
    rfl
  | true =>
    have hnil : b = [] := (hb.position_eq_iff (hseek.trans hcan)).mp hsame
    obtain ⟨y, hy, hpast⟩ := hidle hnil s
    rw [hs] at hy
    cases hy
    exact (hpast.position_eq_iff hcan).mpr rfl

end Idle

end Reader

namespace Codec

open Reader

variable {c : Codec} {m : Moment} {name : String} {t : RecordType} {levels : Nat}

theorem idle_elementReader (c : Codec) (m : Moment) : Idle (c.elementReader m) := by
  have hnested := Idle.law.decodeRecord c (fun _ _ _ h => by cases h) m.levels
  exact @FieldLaw.readElement c Bool _ Idle.law.fieldLaw (fun _ => c.decodeRecord m.levels) m.field
    m.frame fun _ => hnested _ _

/-- The value that is read at a moment cannot be read, with everything before it being as it is. -/
inductive Unreadable (c : Codec) (m : Moment) : DecodeErrorKind → Cause → Prop
  /-- Too little is left for a scalar. -/
  | scalar {p : Primitive} : m.listed = false → m.field.Present m.frame.scope →
      m.field.type.kind = .primitive p → m.source.rest.length < p.width →
      Unreadable c m .truncated m.source.shortage
  /-- Too little is left for the room that an absent value keeps. -/
  | room {cond : Condition} : m.listed = false → m.field.condition = some cond →
      cond.expr.evalBool m.frame.scope = .ok false → cond.advance = true →
      m.source.rest.length < c.keptWidth m.field.type → Unreadable c m .truncated m.source.shortage
  | condition {cond : Condition} {e : ExprError} : m.listed = false →
      m.field.condition = some cond → cond.expr.evalBool m.frame.scope = .error (.error e) →
      Unreadable c m .expression (.expression e)
  | count {r : Repetition} {e : ExprError} : m.listed = true → m.field.repetition = some r →
      r.expr.evalCount m.frame.scope = .error (.error e) →
      Unreadable c m .expression (.expression e)
  /-- The first of many elements takes no input. -/
  | emptyElements {r : Repetition} {count : Nat} {v : Value} {s' : Source} : m.listed = true →
      m.field.repetition = some r → r.expr.evalCount m.frame.scope = .ok count →
      emptyElementLimit < count → c.elementReader m m.source = .done v s' →
      s'.position = m.source.position →
      Unreadable c m .expression (.emptyElement r.kind r.expr.source count)

/-- Reading at a moment stopped for want of levels, or at a value it came to that cannot be read, at
the place where this value starts. -/
def StopsAtUnreadable (c : Codec) (m : Moment) (stop : DecodeStop) : Prop :=
  stop = .fault .tooDeep ∨ ∃ e m', stop = .error e ∧ c.Meets m e.path m' ∧
    c.Unreadable m' e.kind e.cause ∧ e.offset = m'.source.position

theorem Unreadable.stops {kind : DecodeErrorKind} {cause : Cause} (h : c.Unreadable m kind cause) :
    c.StopsAtUnreadable m (.error ⟨kind, "", [], m.source.position, cause⟩) :=
  .inr ⟨_, m, rfl, .itself m, h, rfl⟩

/-- A label that puts a step before the path of an error says how to get from one moment to
another. -/
theorem StopsAtUnreadable.map {m₁ : Moment} {label : DecodeError → DecodeError} {step : PathStep}
    (hl : IsLabel label) (hpath : ∀ e, (label e).path = step :: e.path)
    (hstep : ∀ path m', c.Meets m₁ path m' → c.Meets m (step :: path) m') {stop : DecodeStop}
    (h : c.StopsAtUnreadable m₁ stop) : c.StopsAtUnreadable m (stop.map label) := by
  rcases h with rfl | ⟨e, m', rfl, hmeets, hwhy, hoffset⟩
  · exact .inl rfl
  · refine .inr ⟨label e, m', rfl, ?_, ?_, ?_⟩
    · rw [hpath]
      exact hstep _ _ hmeets
    · rw [hl.kind, hl.cause]
      exact hwhy
    · rw [hl.offset]
      exact hoffset

/-- The reader of a list fails at an element that cannot be read, or at one that takes no input where
it has to. -/
theorem readElements_failed {read : Reader Value} {r : Repetition} {count left : Nat}
    {items : List Value} {s s' : Source} {stop : DecodeStop}
    (h : readElements read r count left items s = .failed stop s') :
    ∃ i y, ComesToElement read count left s i y ∧
      ((∃ stop' y', read y = .failed stop' y' ∧ stop = stop'.map (.inElement i)) ∨
        ∃ v y', read y = .done v y' ∧ emptyElementLimit < count ∧ y'.position = y.position ∧
          stop = .error ⟨.expression, "", [], y.position,
            .emptyElement r.kind r.expr.source count⟩) := by
  induction left generalizing items s with
  | zero => cases h
  | succ left ih =>
    unfold readElements at h
    cases hread : read s with
    | failed stop' s₁ =>
      simp only [hread, Pass.failed.injEq] at h
      exact ⟨_, s, .here left s, .inl ⟨stop', s₁, hread, h.1.symm⟩⟩
    | done v s₁ =>
      simp only [hread] at h
      split at h
      · rename_i hempty
        cases h
        exact ⟨_, s, .here left s, .inr ⟨v, s', hread, hempty.1, hempty.2, rfl⟩⟩
      · rename_i hguard
        obtain ⟨i, y, hcomes, hwhy⟩ := ih h
        exact ⟨i, y, .later hread hguard hcomes, hwhy⟩

/-- The reader of a record fails at a field. -/
theorem readFields_failed {nested : NestedDecoder} {fields : List Field} {slots : List Value}
    {fr : Frame} {s s' : Source} {stop : DecodeStop}
    (h : c.readFields nested t fields slots fr s = .failed stop s') :
    ∃ g fr' y stop' y', ComesToField c nested t fields slots fr s g fr' y ∧
      c.readField nested g fr' y = .failed stop' y' ∧ stop = stop'.map (.inField t.name g.id) := by
  induction fields generalizing slots fr s with
  | nil => cases h
  | cons f fs ih =>
    unfold readFields at h
    dsimp only at h
    cases hread : c.readField nested f (fr.before (c.sharesAfter? t.name) t slots) s with
    | failed stop' s₁ =>
      simp only [hread, Pass.failed.injEq] at h
      exact ⟨f, _, s, stop', s₁, .here f fs slots fr s, hread, h.1.symm⟩
    | done v s₁ =>
      simp only [hread] at h
      obtain ⟨g, fr', y, stop', y', hcomes, hfailed, hstop⟩ := ih h
      exact ⟨g, fr', y, stop', y', .later hread hcomes, hfailed, hstop⟩

theorem decodeRecord_failed {context : Option Context} {s s' : Source} {stop : DecodeStop}
    (ht : c.type? name = some t)
    (h : c.decodeRecord (levels + 1) name context s = .failed stop s') :
    c.readFields (c.decodeRecord levels) t t.fields []
      (.start (if c.isRoot t.name then none else context)) s = .failed stop s' := by
  rw [decodeRecord_succ c levels ht, andThen, ← type?_name ht] at h
  cases hfields : c.readFields (c.decodeRecord levels) t t.fields []
      (.start (if c.isRoot t.name then none else context)) s with
  | failed stop' s₁ =>
    simp only [hfields, Pass.failed.injEq] at h
    rw [h.1, h.2]
  | done all s₁ => simp [hfields] at h

/-- A list fails at one of its elements, or as a whole: then the reason shows in its count or in its
first element. -/
theorem stopsAtUnreadable_listed {stop : DecodeStop} {s' : Source} (hlisted : m.listed = true)
    (hrepeated : m.field.repetition.isSome = true) (hset : Schema.Evaluable m.field)
    (helement : ∀ x stop x', c.readAt (m.element x) = .failed stop x' →
      c.StopsAtUnreadable (m.element x) stop)
    (h : c.readAt m = .failed stop s') : c.StopsAtUnreadable m stop := by
  obtain ⟨r, hr⟩ := Option.isSome_iff_exists.mp hrepeated
  cases hcount : r.expr.evalCount m.frame.scope with
  | error why =>
    rw [readAt_listed hlisted] at h
    simp only [readField, hr, hcount] at h
    cases why with
    | fault f => exact absurd (Expr.fault_of_evalCount hcount).2 (hset.repetition r hr)
    | error e =>
      cases h
      exact (Unreadable.count hlisted hr hcount).stops
  | ok count =>
    rw [readAt_counted hlisted hr hcount] at h
    cases hitems : readElements (c.elementReader m) r count count [] m.source with
    | done items s₁ => simp [hitems, Pass.map] at h
    | failed stop' s₁ =>
      simp only [hitems, Pass.map, Pass.failed.injEq] at h
      rw [← h.1]
      obtain ⟨i, y, hcomes, hwhy⟩ := readElements_failed hitems
      rcases hwhy with ⟨inner, y', hread, rfl⟩ | ⟨v, y', hread, hlong, hsame, rfl⟩
      · have hinner := helement y inner y' ((readAt_single rfl).trans hread)
        exact hinner.map (isLabel_inElement i) (fun _ => rfl)
          fun _ _ hmeets => .element hlisted hr hcount hcomes hmeets
      · -- An element that takes no input takes none as the first one either, and then the list
        -- does not come to a second.
        obtain ⟨b, hb⟩ := hcomes.past
        have hfirst : y = m.source := by
          cases hcomes with
          | here => rfl
          | later hread' hguard _ =>
            exact absurd ⟨hlong, (c.idle_elementReader m).position_eq hread hsame hb.seekable hread'⟩
              hguard
        subst hfirst
        exact (Unreadable.emptyElements hlisted hr hcount hlong hread hsame).stops

/-- A record fails at one of its fields. -/
theorem stopsAtUnreadable_record {stop : DecodeStop} {s' : Source} (hsingle : m.listed = false)
    (hcomposite : m.field.type.kind.isComposite = true) (hpresent : m.field.Present m.frame.scope)
    (hlevels : m.levels = levels + 1) (ht : c.type? m.field.type.name = some t)
    (hfield : ∀ g ∈ t.fields, ∀ fr x stop x',
      c.readAt ⟨g, g.repetition.isSome, fr, x, levels⟩ = .failed stop x' →
        c.StopsAtUnreadable ⟨g, g.repetition.isSome, fr, x, levels⟩ stop)
    (h : c.decodeRecord m.levels m.field.type.name m.frame.context m.source = .failed stop s') :
    c.StopsAtUnreadable m stop := by
  rw [hlevels] at h
  obtain ⟨g, fr, y, stop', y', hcomes, hread, rfl⟩ := readFields_failed (decodeRecord_failed ht h)
  rw [← readAt_field] at hread
  have hinner := hfield g hcomes.mem fr y stop' y' hread
  exact hinner.map (isLabel_inField _ _) (fun _ => rfl)
    fun _ _ hmeets => .slot hsingle hcomposite hpresent hlevels ht hcomes hmeets

/-- The field holds scalars of some kind, or records of a type that the codec knows, and its
expressions were set. -/
structure Readable (c : Codec) (f : Field) : Prop where
  type : (∃ p, f.type.kind = .primitive p) ∨
    (f.type.kind.isComposite = true ∧ ∃ t, c.type? f.type.name = some t)
  evaluable : Schema.Evaluable f

/-- Where all fields are readable, a reading that stops does so at a value that cannot be read. -/
theorem stopsAtUnreadable_of_failed
    (hc : ∀ name t, c.type? name = some t → ∀ f ∈ t.fields, c.Readable f)
    {stop : DecodeStop} {s' : Source} (hm : m.listed = true → m.field.repetition.isSome = true)
    (hf : c.Readable m.field) (h : c.readAt m = .failed stop s') : c.StopsAtUnreadable m stop := by
  induction m using Moment.induction generalizing stop s' with
  | listed m hlisted ih =>
    exact stopsAtUnreadable_listed hlisted (hm hlisted) hf.evaluable
      (fun x stop x' => ih x (by simp [Moment.element]) hf) h
  | single m hlisted ih =>
    rw [readAt_single hlisted, elementReader] at h
    rcases c.readElement_cases (c.decodeRecord m.levels) m.field m.frame with
      ⟨hpresent, hread⟩ | ⟨cond, hcond, heval, hread⟩ | ⟨cond, why, hcond, heval, hread⟩
    · rw [hread] at h
      rcases hf.type with ⟨p, hp⟩ | ⟨hcomposite, t, ht⟩
      · rw [readBase, hp, if_neg (by simp [TypeKind.isComposite]), readScalar_primitive] at h
        obtain ⟨hshort, rfl⟩ := taking_failed h
        exact (Unreadable.scalar hlisted hpresent hp hshort).stops
      · rw [readBase, if_pos hcomposite] at h
        cases hnested : c.decodeRecord m.levels m.field.type.name m.frame.context m.source with
        | done r s₁ => simp [hnested, Pass.map] at h
        | failed stop' s₁ =>
          simp only [hnested, Pass.map, Pass.failed.injEq] at h
          rw [← h.1]
          cases hbelow : m.levels with
          | zero =>
            rw [hbelow] at hnested
            cases hnested
            exact .inl rfl
          | succ below =>
            apply stopsAtUnreadable_record hlisted hcomposite hpresent hbelow ht _ hnested
            intro g hg fr x stop x' hread
            exact ih g fr x below (by omega) (fun h => h) (hc _ t ht g hg) hread
    · rw [hread] at h
      cases hadvance : cond.advance with
      | false =>
        rw [hadvance] at h
        cases h
      | true =>
        rw [hadvance, skipAbsent_true] at h
        obtain ⟨hshort, rfl⟩ := taking_failed h
        exact (Unreadable.room hlisted hcond heval hadvance hshort).stops
    · rw [hread] at h
      cases why with
      | fault f =>
        exact absurd (Expr.fault_of_evalBool heval).2 (hf.evaluable.condition cond hcond)
      | error e =>
        cases h
        exact (Unreadable.condition hlisted hcond heval).stops

theorem readable_of_compile {s : Schema} {options : CodecOptions} (hs : s.Accepted)
    (hc : compile (some s) options = .ok c) (ht : c.type? name = some t) :
    ∀ f ∈ t.fields, c.Readable f := by
  intro f hf
  have hl := linked_of_compile hs hc
  have hmem := mem_of_type? ht
  have hschema : c.schema = s := by rw [compile_ok hc]
  rw [hschema] at hmem
  refine ⟨?_, hs.evaluable t hmem f hf⟩
  rcases hs.assigned t hmem f hf with hkind | hscalar
  · have hcomposite : f.type.kind.isComposite = true := by
      rw [hkind]
      rfl
    have hdeclared := declared_of_type? hl ht f hf hcomposite
    obtain ⟨u, hu⟩ := Option.isSome_iff_exists.mp hdeclared
    exact .inr ⟨hcomposite, u, (type?_declared hl hdeclared).trans hu⟩
  · exact .inl hscalar

/-- The types of a schema have names. -/
theorem name_ne_empty {s : Schema} {options : CodecOptions} (hs : s.Accepted)
    (hc : compile (some s) options = .ok c) (ht : c.type? name = some t) : name.isEmpty = false := by
  have hmem := mem_of_type? ht
  have hschema : c.schema = s := by rw [compile_ok hc]
  rw [hschema] at hmem
  rw [← type?_name ht, String.isEmpty_eq_false_iff]
  rcases hmem with hmem | rfl
  · obtain ⟨ch, cs, hlist, -⟩ := PathStep.startsField_of_isIdentifier (hs.wellFormed.identifier t hmem)
    intro hnil
    rw [hnil] at hlist
    cases hlist
  · obtain ⟨order, rootName, types, items, hbuild⟩ := hs.build
    rw [Schema.root_name_of_build hbuild]
    split
    · decide
    · rename_i hne
      simpa using hne

/-- The error points at the value that is read at the moment, in a record of the type that is read in
the context from the source. -/
structure PointsAt (c : Codec) (t : RecordType) (context : Option Context) (s : Source)
    (e : DecodeError) (segments : List Segment) (m : Moment) : Prop where
  kind : e.kind = .truncated ∨ e.kind = .expression
  type : e.type = t.name
  text : PathStep.render e.path = Segment.render segments
  resolves : c.Resolves t segments m.field
  truncated : e.kind = .truncated → (∃ p, m.field.type.kind = .primitive p) ∨
    ∃ cond, m.field.condition = some cond ∧ cond.advance = true
  expression : e.kind = .expression →
    m.field.condition.isSome = true ∨ m.field.repetition.isSome = true
  /-- All that stands before the value has been read, and nothing else. -/
  meets : c.Meets (.ofRecord t.name context (c.depthLimit s.rest.length) s) e.path m
  unreadable : c.Unreadable m e.kind e.cause
  position : e.offset = m.source.position
  offset : ∃ b, s.Past m.source b ∧ (s.seekable = true → e.offset = s.offset + b.length)

theorem Unreadable.kind {kind : DecodeErrorKind} {cause : Cause} (h : c.Unreadable m kind cause) :
    kind = .truncated ∨ kind = .expression := by
  cases h with
  | scalar => exact .inl rfl
  | room => exact .inl rfl
  | condition => exact .inr rfl
  | count => exact .inr rfl
  | emptyElements => exact .inr rfl

/-- Input can be missing for a scalar or for room that is kept. -/
theorem Unreadable.truncated {cause : Cause} (h : c.Unreadable m .truncated cause) :
    (∃ p, m.field.type.kind = .primitive p) ∨
      ∃ cond, m.field.condition = some cond ∧ cond.advance = true := by
  cases h with
  | scalar _ _ hp _ => exact .inl ⟨_, hp⟩
  | room _ hcond _ hadvance _ => exact .inr ⟨_, hcond, hadvance⟩

/-- Only conditions and counts are evaluated. -/
theorem Unreadable.expression {cause : Cause} (h : c.Unreadable m .expression cause) :
    m.field.condition.isSome = true ∨ m.field.repetition.isSome = true := by
  cases h with
  | condition _ hcond _ => exact .inl (by simp [hcond])
  | count _ hr _ => exact .inr (by simp [hr])
  | emptyElements _ hr _ _ _ _ => exact .inr (by simp [hr])

/-- A failure to read a record is labelled with the name of its type, and with a field at least. -/
theorem decodeRecord_error_labelled {context : Option Context} {s s' : Source} {e : DecodeError}
    (hname : name.isEmpty = false) (ht : c.type? name = some t)
    (h : c.decodeRecord (levels + 1) name context s = .failed (.error e) s') :
    e.type = t.name ∧ e.path ≠ [] := by
  obtain ⟨g, fr, y, stop', y', -, -, hstop⟩ := readFields_failed (decodeRecord_failed ht h)
  cases stop' with
  | fault f => cases hstop
  | error inner =>
    cases hstop
    rw [← type?_name ht] at hname
    exact ⟨by simp [DecodeError.inField, hname], by simp [DecodeError.inField]⟩

theorem decodeRecord_of_decodeType_failed {context : Option Context} {s s' : Source}
    {stop : DecodeStop} (h : c.decodeType name context s = .failed stop s') :
    c.decodeRecord (c.depthLimit s.rest.length) name context s = .failed stop s' := by
  unfold decodeType at h
  cases hd : c.decodeRecord (c.depthLimit s.rest.length) name context s with
  | done r s₁ => simp [hd] at h
  | failed stop' s₁ => simpa [hd] using h

theorem readable_ofRecord (ht : c.type? name = some t) {context : Option Context} {s : Source} :
    c.Readable (Moment.ofRecord name context levels s).field :=
  ⟨.inr ⟨rfl, t, ht⟩, Schema.evaluable_of_none rfl rfl⟩

theorem stopsAtUnreadable_of_decodeType {schema : Schema} {options : CodecOptions}
    (hs : schema.Accepted) (hc : compile (some schema) options = .ok c) (ht : c.type? name = some t)
    {context : Option Context} {s s' : Source} {stop : DecodeStop}
    (h : c.decodeType name context s = .failed stop s') :
    c.StopsAtUnreadable (.ofRecord name context (c.depthLimit s.rest.length) s) stop := by
  have hread : c.readAt (.ofRecord name context (c.depthLimit s.rest.length) s) =
      .failed stop s' := by
    rw [readAt_ofRecord, decodeRecord_of_decodeType_failed h]
    rfl
  exact stopsAtUnreadable_of_failed (fun _ _ => readable_of_compile hs hc)
    (fun hlisted => by cases hlisted) (readable_ofRecord ht) hread

/-- What stopped for want of levels stops so with any number of them. -/
theorem tooDeep_of_decodeType (hl : c.schema.Linked) {context : Option Context} {s s' : Source}
    (h : c.decodeType name context s = .failed (.fault .tooDeep) s') (levels : Nat) :
    TooDeep (c.decodeRecord levels name context s) := by
  by_contra hnot
  have hrecord := decodeRecord_of_decodeType_failed h
  rw [decodeRecord_depthLimit hl hnot] at hrecord
  exact hnot ⟨s', hrecord⟩

/-- A reading that fails says where: its error points at a value that cannot be read. Reading breaks
off without an error only if records hold each other without end and no number of levels is
enough. -/
theorem decodeType_error_points {schema : Schema} {options : CodecOptions} (hs : schema.Accepted)
    (hc : compile (some schema) options = .ok c) (ht : c.type? name = some t)
    (context : Option Context) {s s' : Source} {stop : DecodeStop}
    (h : c.decodeType name context s = .failed stop s') :
    (∃ e segments m, stop = .error e ∧ c.PointsAt t context s e segments m) ∨
      (stop = .fault .tooDeep ∧ ∀ levels, TooDeep (c.decodeRecord levels name context s)) := by
  have hrecord := decodeRecord_of_decodeType_failed h
  rcases stopsAtUnreadable_of_decodeType hs hc ht h with rfl | ⟨e, m, rfl, hmeets, hwhy, hposition⟩
  · exact .inr ⟨rfl, tooDeep_of_decodeType (linked_of_compile hs hc) h⟩
  · obtain ⟨htype, hpath⟩ := decodeRecord_error_labelled (name_ne_empty hs hc ht) ht hrecord
    obtain ⟨segments, hsteps, hresolves⟩ := hmeets.resolves ht hpath
    have hids := hresolves.isIdentifier (fun _ u hu f hf => by
      have hmem := mem_of_type? hu
      have hschema : c.schema = schema := by rw [compile_ok hc]
      rw [hschema] at hmem
      exact (hs.wellFormed.fields u hmem).identifier f hf) ⟨name, ht⟩
    have htext : PathStep.render e.path = Segment.render segments := by
      rw [hsteps]
      exact PathStep.render_steps segments hids
    obtain ⟨b, hb⟩ := hmeets.past
    refine .inl ⟨e, segments, m, rfl, hwhy.kind, htype, htext, hresolves, ?_, ?_, ?_, hwhy,
      hposition, b, hb, fun hseek => hposition.trans (hb.position hseek)⟩
    · intro hkind
      rw [hkind] at hwhy
      exact hwhy.truncated
    · intro hkind
      rw [hkind] at hwhy
      exact hwhy.expression
    · rw [type?_name ht]
      exact hmeets

/-- The second number in the list of the second item is cut, seven bytes in. -/
theorem decodeType_error_points_nested_list :
    ∃ schema c, Schema.parse ("types:\n  Item:\n  - id: n\n    type: u8\n  - id: xs\n" ++
        "    type: '[]u16'\n    repeat: Count(n)\n" ++
        "items:\n- id: k\n  type: u8\n- id: items\n  type: '[]Item'\n" ++
        "  repeat: Count(k)").toUTF8.toList = .ok schema ∧
      compile (some schema) .strict = .ok c ∧
      ∃ e s', c.decodeType c.schema.root.name none (.ofBytes [2, 1, 5, 0, 2, 7, 0, 9]) =
          .failed (.error e) s' ∧
        PathStep.render e.path = "items[1].xs[1]" ∧ e.offset = 7 ∧
        ∃ segments m, c.PointsAt c.schema.root none (.ofBytes [2, 1, 5, 0, 2, 7, 0, 9]) e segments
          m := by
  refine exists_of_parse (fun c => (failure? (c.decodeType c.schema.root.name none
    (.ofBytes [2, 1, 5, 0, 2, 7, 0, 9])).result).map fun e => (PathStep.render e.path, e.offset))
    ("items[1].xs[1]", 7) (by decide +kernel) ?_
  intro schema c hs hc h
  obtain ⟨e, he, htext⟩ := Option.map_eq_some_iff.mp h
  rw [Prod.mk.injEq] at htext
  have hfailed := Pass.eq_failed_of_result (eq_error_of_failure? he)
  refine ⟨e, _, hfailed, htext.1, htext.2, ?_⟩
  rcases decodeType_error_points (.of_parse hs) hc c.type?_root none hfailed with
    ⟨e', segments, m, hstop, hpoints⟩ | ⟨hstop, -⟩
  · cases hstop
    exact ⟨segments, m, hpoints⟩
  · cases hstop

end Codec

end Savefile
