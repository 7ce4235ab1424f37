import Savefile.Proofs.Reader

/-!
# What a reader looks at

A reader that comes to an end, or fails for another reason than missing input, has looked only at
the bytes it moved past: with the same bytes and anything after them it does the same. With fewer
bytes it fails for want of input, at the value that the cut falls into.
-/
namespace Savefile

namespace Source

/-- `s'` is `s` once `bytes` are read, notes aside. -/
structure Past (s s' : Source) (bytes : List UInt8) : Prop where
  rest : s.rest = bytes ++ s'.rest
  offset : s'.offset = s.offset + bytes.length
  seekable : s'.seekable = s.seekable

/-- The same place with other input to come. -/
def withRest (s : Source) (rest : List UInt8) : Source := { s with rest := rest }

variable {s s' s'' : Source} {b b' : List UInt8}

theorem Past.refl (s : Source) : s.Past s [] := ⟨rfl, rfl, rfl⟩

theorem Past.trans (h : s.Past s' b) (h' : s'.Past s'' b') : s.Past s'' (b ++ b') := by
  refine ⟨?_, ?_, h'.seekable.trans h.seekable⟩
  · rw [h.rest, h'.rest, List.append_assoc]
  · rw [h'.offset, h.offset, List.length_append, Nat.add_assoc]

theorem Past.note (h : s.Past s' b) (n : Note) : s.Past (s'.note n) b :=
  ⟨h.rest, h.offset, h.seekable⟩

theorem Past.position (h : s.Past s' b) (hs : s.seekable = true) :
    s'.position = s.offset + b.length := by
  rw [Source.position, h.seekable, hs, if_pos rfl, h.offset]
  rfl

theorem position_withRest (s : Source) (rest : List UInt8) :
    (s.withRest rest).position = s.position := rfl

theorem withRest_self (s : Source) : s.withRest s.rest = s := rfl

theorem take_of_le {n : Nat} (h : n ≤ s.rest.length) :
    s.take n = .ok (s.rest.take n, { s with rest := s.rest.drop n, offset := s.offset + n }) := by
  have hlen : (s.rest.take n).length = n := by simp [h]
  simp only [take, hlen, if_true]

/-- Taking bytes that are there. -/
theorem take_append (h : s.rest = b ++ b') :
    s.take b.length = .ok (b, { s with rest := b', offset := s.offset + b.length }) := by
  rw [take_of_le (by simp [h]), h, List.take_left, List.drop_left]

theorem take_of_short {n : Nat} (h : s.rest.length < n) :
    s.take n = .error (if s.rest.isEmpty then .endOfInput else .endInsideValue) := by
  have ht : s.rest.take n = s.rest := List.take_of_length_le (Nat.le_of_lt h)
  have hn : s.rest.length ≠ n := Nat.ne_of_lt h
  simp only [take, ht, hn, if_false]
  split <;> rfl

end Source

/-- A failure because the input ends after `finish` bytes: nothing is left where the value starts, or
too little. -/
structure EndsAt (finish : Nat) (e : DecodeError) : Prop where
  kind : e.kind = .truncated
  offset_le : e.offset ≤ finish
  atEnd : e.offset = finish → e.cause = .endOfInput
  beforeEnd : e.offset < finish → e.cause = .endInsideValue

theorem EndsAt.label {finish : Nat} {e : DecodeError} (h : EndsAt finish e)
    {label : DecodeError → DecodeError} (hl : Reader.IsLabel label) : EndsAt finish (label e) := by
  refine ⟨?_, ?_, ?_, ?_⟩
  · rw [hl.kind]
    exact h.kind
  · rw [hl.offset]
    exact h.offset_le
  · rw [hl.offset, hl.cause]
    exact h.atEnd
  · rw [hl.offset, hl.cause]
    exact h.beforeEnd

/-- Whether reading stopped for want of input. -/
def DecodeStop.isTruncated : DecodeStop → Prop
  | .error e => e.kind = .truncated
  | _ => False

/-- The error that something ended with, if it did not break off. -/
def failure? {ε α : Type} : Except (Stop ε) α → Option ε
  | .error (.error e) => some e
  | _ => none

theorem eq_error_of_failure? {ε α : Type} {x : Except (Stop ε) α} {e : ε}
    (h : failure? x = some e) : x = .error (.error e) := by
  unfold failure? at h
  split at h
  · rw [Option.some.inj h]
  · cases h

/-- The fault that something broke off with, if it did. -/
def fault? {ε α : Type} : Except (Stop ε) α → Option Fault
  | .error (.fault f) => some f
  | _ => none

theorem eq_error_of_fault? {ε α : Type} {x : Except (Stop ε) α} {f : Fault}
    (h : fault? x = some f) : x = .error (.fault f) := by
  unfold fault? at h
  split at h
  · rw [Option.some.inj h]
  · cases h

namespace Reader

variable {α β : Type}

theorem taking_done {n : Nat} {make : List UInt8 → α} {s s' : Source} {v : α}
    (h : taking n make s = .done v s') : ∃ b, b.length = n ∧ v = make b ∧ s.Past s' b := by
  by_cases hn : n ≤ s.rest.length
  · rw [taking, Source.take_of_le hn] at h
    cases h
    have hlen : (s.rest.take n).length = n := by simp [hn]
    refine ⟨s.rest.take n, hlen, rfl, (List.take_append_drop n s.rest).symm, ?_, rfl⟩
    rw [hlen]
  · rw [taking, Source.take_of_short (Nat.lt_of_not_le hn)] at h
    cases h

theorem taking_append {b t : List UInt8} (make : List UInt8 → α) {s : Source}
    (h : s.rest = b ++ t) : ∃ s', taking b.length make s = .done (make b) s' ∧ s.Past s' b := by
  refine ⟨{ s with rest := t, offset := s.offset + b.length }, ?_, h, rfl, rfl⟩
  rw [taking, Source.take_append h]

/-- The reader stops with an error where the input ends. -/
def CutAt (finish : Nat) (p : Decoding α) : Prop :=
  ∃ e s', p = .failed (.error e) s' ∧ EndsAt finish e

theorem taking_cut {n : Nat} (make : List UInt8 → α) {s : Source} {b : List UInt8}
    (hs : s.seekable = true) (h : b.length < n) :
    CutAt (s.offset + b.length) (taking n make (s.withRest b)) := by
  have hp : (s.withRest b).position = s.offset := by
    rw [Source.position_withRest, Source.position, if_pos hs]
  have ht : (s.withRest b).take n = .error (if b.isEmpty then .endOfInput else .endInsideValue) :=
    (s.withRest b).take_of_short h
  rw [taking, ht]
  refine ⟨_, _, rfl, rfl, ?_, ?_, ?_⟩
  · simp only [hp]
    omega
  · intro he
    simp only [hp] at he
    have hb : b = [] := List.eq_nil_of_length_eq_zero (by omega)
    simp [hb]
  · intro he
    simp only [hp] at he
    have hb : b ≠ [] := by
      rintro rfl
      simp at he
    simp [hb]

/-- The reader looks at no more than it moves past, and at all of it. -/
structure LocalAt (p : Reader α) (s : Source) : Prop where
  /-- The bytes of a value decide it, whatever follows; a part of them is too short. -/
  done : ∀ v s', p s = .done v s' → ∃ b, s.Past s' b ∧
    (∀ t, p (s.withRest (b ++ t)) = .done v (s'.withRest t)) ∧
    ∀ b' b'', b = b' ++ b'' → b'' ≠ [] → CutAt (s.offset + b'.length) (p (s.withRest b'))
  /-- The bytes before a failure decide it, unless it is their end. -/
  failed : ∀ e s', p s = .failed e s' → ¬e.isTruncated → ∃ b, s.Past s' b ∧
    (∀ t, p (s.withRest (b ++ t)) = .failed e (s'.withRest t)) ∧
    ∀ e', e = .error e' → e'.offset = s'.position

/-- A reader that is local wherever it can tell its position. -/
def Local (p : Reader α) : Prop := ∀ s : Source, s.seekable = true → LocalAt p s

theorem local_done (v : α) : Local (fun s => .done v s) := by
  intro s _
  constructor
  · intro v' s' h
    cases h
    refine ⟨[], .refl s, fun t => rfl, ?_⟩
    intro b' b'' hb hne
    exact absurd (List.append_eq_nil_iff.mp hb.symm).2 hne
  · intro e s' h
    cases h

theorem local_faulting (f : Fault) : Local (faulting f : Reader α) := by
  intro s _
  constructor
  · intro v s' h
    cases h
  · intro e s' h _
    cases h
    refine ⟨[], .refl s, fun t => rfl, ?_⟩
    intro e' he'
    cases he'

theorem local_failing (kind : DecodeErrorKind) (cause : Cause) :
    Local (failing kind cause : Reader α) := by
  intro s _
  constructor
  · intro v s' h
    cases h
  · intro e s' h _
    cases h
    refine ⟨[], .refl s, fun t => rfl, ?_⟩
    intro e' he'
    cases he'
    rfl

theorem local_taking (n : Nat) (make : List UInt8 → α) : Local (taking n make) := by
  intro s hs
  by_cases hn : n ≤ s.rest.length
  · -- The bytes are there.
    have hlen : (s.rest.take n).length = n := by simp [hn]
    have htaking : ∀ t, taking n make (s.withRest (s.rest.take n ++ t)) =
        .done (make (s.rest.take n)) ({ s with offset := s.offset + n }.withRest t) := by
      intro t
      have h := (s.withRest (s.rest.take n ++ t)).take_append (b := s.rest.take n) rfl
      rw [hlen] at h
      rw [taking, h]
      rfl
    have hself := htaking (s.rest.drop n)
    rw [List.take_append_drop, s.withRest_self] at hself
    constructor
    · intro v s' h
      rw [hself] at h
      cases h
      refine ⟨s.rest.take n, ⟨(List.take_append_drop n s.rest).symm, ?_, rfl⟩, htaking, ?_⟩
      · rw [hlen]
        rfl
      · intro b' b'' hb hne
        have hpos : 0 < b''.length := List.length_pos_iff.mpr hne
        apply taking_cut make hs
        rw [← hlen, hb, List.length_append]
        omega
    · intro e s' h
      rw [hself] at h
      cases h
  · -- They are not, so the failure is one for want of input.
    have ht := s.take_of_short (Nat.lt_of_not_le hn)
    have hf : taking n make s = s.fail .truncated s.position
        (if s.rest.isEmpty then .endOfInput else .endInsideValue) := by
      rw [taking, ht]
    constructor
    · intro v s' h
      rw [hf] at h
      cases h
    · intro e s' h hnot
      rw [hf] at h
      cases h
      exact absurd rfl hnot

theorem CutAt.andThen {finish : Nat} {p : Reader α} {s : Source} (h : CutAt finish (p s))
    (q : α → Reader β) : CutAt finish (p.andThen q s) := by
  obtain ⟨e, s', hp, he⟩ := h
  refine ⟨e, s', ?_, he⟩
  rw [Reader.andThen, hp]

theorem Local.andThen {p : Reader α} {q : α → Reader β} (hp : Local p) (hq : ∀ v, Local (q v)) :
    Local (p.andThen q) := by
  intro s hs
  cases hps : p s with
  | failed e s₁ =>
    have hf : p.andThen q s = .failed e s₁ := by rw [Reader.andThen, hps]
    constructor
    · intro w s₂ h
      rw [hf] at h
      cases h
    · intro e' s₂ h hnot
      rw [hf] at h
      cases h
      obtain ⟨b, hpast, hsame, hoff⟩ := (hp s hs).failed e s₁ hps hnot
      refine ⟨b, hpast, ?_, hoff⟩
      intro t
      rw [Reader.andThen, hsame]
  | done v s₁ =>
    have hd : p.andThen q s = q v s₁ := by rw [Reader.andThen, hps]
    obtain ⟨b, hpast, hsame, hcut⟩ := (hp s hs).done v s₁ hps
    have hs₁ : s₁.seekable = true := hpast.seekable.trans hs
    have hnext : ∀ t, p.andThen q (s.withRest (b ++ t)) = q v (s₁.withRest t) := by
      intro t
      rw [Reader.andThen, hsame]
    constructor
    · intro w s₂ h
      rw [hd] at h
      obtain ⟨b₁, hpast₁, hsame₁, hcut₁⟩ := (hq v s₁ hs₁).done w s₂ h
      refine ⟨b ++ b₁, hpast.trans hpast₁, ?_, ?_⟩
      · intro t
        rw [List.append_assoc, hnext, hsame₁]
      · -- The cut falls into what the first reader reads, or into what the second does.
        intro b' b'' hb hne
        rcases List.append_eq_append_iff.mp hb with ⟨c, rfl, hc⟩ | ⟨c, hc, hc'⟩
        · have h₁ := hcut₁ c b'' hc hne
          rw [hpast.offset, Nat.add_assoc, ← List.length_append] at h₁
          rw [hnext]
          exact h₁
        · by_cases hcn : c = []
          · subst hcn
            rw [List.append_nil] at hc
            subst hc
            have h₁ := hcut₁ [] b'' hc'.symm hne
            have hnil := hnext []
            rw [hpast.offset, List.length_nil, Nat.add_zero] at h₁
            rw [List.append_nil] at hnil
            rw [hnil]
            exact h₁
          · exact (hcut b' c hc hcn).andThen q
    · intro e s₂ h hnot
      rw [hd] at h
      obtain ⟨b₁, hpast₁, hsame₁, hoff⟩ := (hq v s₁ hs₁).failed e s₂ h hnot
      refine ⟨b ++ b₁, hpast.trans hpast₁, ?_, hoff⟩
      intro t
      rw [List.append_assoc, hnext, hsame₁]

theorem Local.labelled {label : DecodeError → DecodeError} (hl : IsLabel label) {p : Reader α}
    (hp : Local p) : Local (p.labelled label) := by
  intro s hs
  constructor
  · intro v s' h
    have hps : p s = .done v s' := by
      rw [Reader.labelled] at h
      cases hps : p s <;> simp_all
    obtain ⟨b, hpast, hsame, hcut⟩ := (hp s hs).done v s' hps
    refine ⟨b, hpast, ?_, ?_⟩
    · intro t
      rw [Reader.labelled, hsame]
    · intro b' b'' hb hne
      obtain ⟨e, s₁, he, hends⟩ := hcut b' b'' hb hne
      refine ⟨label e, s₁, ?_, hends.label hl⟩
      rw [Reader.labelled, he]
      rfl
  · intro e s' h hnot
    rw [Reader.labelled] at h
    cases hps : p s with
    | done v s₁ => simp [hps] at h
    | failed e₁ s₁ =>
      simp only [hps, Pass.failed.injEq] at h
      obtain ⟨rfl, rfl⟩ := h
      have hnot₁ : ¬e₁.isTruncated := by
        intro h₁
        cases e₁ with
        | error e₂ => exact hnot ((hl.kind e₂).trans h₁)
        | fault f => exact h₁
      obtain ⟨b, hpast, hsame, hoff⟩ := (hp s hs).failed e₁ s₁ hps hnot₁
      refine ⟨b, hpast, ?_, ?_⟩
      · intro t
        rw [Reader.labelled, hsame]
      · intro e' he'
        cases e₁ with
        | error e₂ =>
          cases he'
          rw [hl.offset]
          exact hoff e₂ rfl
        | fault f => cases he'

theorem Local.noted (note : Int → α → Note) {p : Reader α} (hp : Local p) :
    Local (p.noted note) := by
  intro s hs
  constructor
  · intro v s' h
    rw [Reader.noted] at h
    cases hps : p s with
    | failed e s₁ => simp [hps] at h
    | done v₁ s₁ =>
      simp only [hps, Pass.done.injEq] at h
      obtain ⟨rfl, rfl⟩ := h
      obtain ⟨b, hpast, hsame, hcut⟩ := (hp s hs).done v₁ s₁ hps
      refine ⟨b, hpast.note _, ?_, ?_⟩
      · intro t
        rw [Reader.noted, hsame]
        rfl
      · intro b' b'' hb hne
        obtain ⟨e, s₂, he, hends⟩ := hcut b' b'' hb hne
        refine ⟨e, s₂, ?_, hends⟩
        rw [Reader.noted, he]
  · intro e s' h hnot
    have hps : p s = .failed e s' := by
      rw [Reader.noted] at h
      cases hps : p s <;> simp_all
    obtain ⟨b, hpast, hsame, hoff⟩ := (hp s hs).failed e s' hps hnot
    refine ⟨b, hpast, ?_, hoff⟩
    intro t
    rw [Reader.noted, hsame]

theorem Local.consuming (required : Prop) [Decidable required] (cause : Cause) {p : Reader α}
    (hp : Local p) : Local (p.consuming required cause) := by
  intro s hs
  cases hps : p s with
  | failed e s₁ =>
    have hf : p.consuming required cause s = .failed e s₁ := by rw [Reader.consuming, hps]
    constructor
    · intro v s' h
      rw [hf] at h
      cases h
    · intro e' s' h hnot
      rw [hf] at h
      cases h
      obtain ⟨b, hpast, hsame, hoff⟩ := (hp s hs).failed e s₁ hps hnot
      refine ⟨b, hpast, ?_, hoff⟩
      intro t
      rw [Reader.consuming, hsame]
  | done v s₁ =>
    obtain ⟨b, hpast, hsame, hcut⟩ := (hp s hs).done v s₁ hps
    by_cases hr : required ∧ s₁.position = s.position
    · have hf : p.consuming required cause s = s₁.fail .expression s.position cause := by
        rw [Reader.consuming, hps]
        exact if_pos hr
      constructor
      · intro w s' h
        rw [hf] at h
        cases h
      · intro e s' h _
        rw [hf] at h
        cases h
        refine ⟨b, hpast, ?_, ?_⟩
        · intro t
          rw [Reader.consuming, hsame]
          exact if_pos hr
        · intro e' he'
          cases he'
          exact hr.2.symm
    · have hd : ∀ t, p.consuming required cause (s.withRest (b ++ t)) = .done v (s₁.withRest t) := by
        intro t
        rw [Reader.consuming, hsame]
        exact if_neg hr
      have hself := hd s₁.rest
      rw [← hpast.rest, s.withRest_self, s₁.withRest_self] at hself
      constructor
      · intro w s' h
        rw [hself] at h
        cases h
        refine ⟨b, hpast, hd, ?_⟩
        intro b' b'' hb hne
        obtain ⟨e, s₂, he, hends⟩ := hcut b' b'' hb hne
        refine ⟨e, s₂, ?_, hends⟩
        rw [Reader.consuming, he]
      · intro e s' h
        rw [hself] at h
        cases h

theorem local_law : Law (fun {α} (p _ : Reader α) => Local p) where
  done := local_done
  taking := local_taking
  failing := local_failing
  faulting _ := local_faulting _
  andThen := Local.andThen
  labelled hl h := Local.labelled hl h
  noted note _ _ h := Local.noted note h
  consuming required _ cause _ _ h := Local.consuming required cause h

end Reader

namespace Codec

/-- The reader of a record looks at no more than it moves past. -/
theorem local_decodeRecord (c : Codec) (depth : Nat) (name : String) (context : Option Context) :
    Reader.Local (c.decodeRecord depth name context) :=
  Reader.local_law.decodeRecord c (Reader.local_faulting .tooDeep) depth name context

end Codec

end Savefile
