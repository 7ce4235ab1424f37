import Savefile.Proofs.Depth

/-!
# Records that are being read at the same time

While a nested record is read, the records around it are being read too. A reading comes to a nested
record if its outcome depends on what is made of that record; chains of such steps say how many
records are being read at one moment. The levels of a reader count exactly these: a number of levels
is enough for a record if no more records are ever being read at the same time.
-/
namespace Savefile

namespace Reader

variable {α β : Type}

instance (p : Decoding α) : Decidable (TooDeep p) :=
  match p with
  | .done v s => isFalse (not_tooDeep_done v s)
  | .failed (.error _) _ => isFalse (by simp [TooDeep])
  | .failed (.fault f) _ =>
    if hf : f = .tooDeep then isTrue (by simp [TooDeep, hf]) else isFalse (by simp [TooDeep, hf])

/-- The second reader of nested records does what the first does, unless that gives up. -/
def Extends (n₁ n₂ : NestedDecoder) : Prop :=
  ∀ name context s, ¬TooDeep (n₁ name context s) → n₂ name context s = n₁ name context s

/-- A reader that uses the first reader of nested records gives up only because that one does, at
some place: whatever gives up there as well, and does the same elsewhere, makes it give up. -/
structure Relies (n₁ : NestedDecoder) (p : NestedDecoder → Reader α) : Prop where
  same : ∀ nested, Extends n₁ nested → ∀ s, ¬TooDeep (p n₁ s) → p nested s = p n₁ s
  place : ∀ s, TooDeep (p n₁ s) → ∃ name context s', TooDeep (n₁ name context s') ∧
    ∀ nested, Extends n₁ nested → TooDeep (nested name context s') → TooDeep (p nested s)

namespace Relies

variable {n₁ : NestedDecoder}

theorem of_never {p : Reader α} (h : ∀ s, ¬TooDeep (p s)) : Relies n₁ fun _ => p :=
  ⟨fun _ _ _ _ => rfl, fun s hs => absurd hs (h s)⟩

theorem nested (name : String) (context : Option Context) :
    Relies n₁ fun n => n name context :=
  ⟨fun _ h s hs => h name context s hs, fun s hs => ⟨name, context, s, hs, fun _ _ h => h⟩⟩

theorem andThen {p : NestedDecoder → Reader α} {q : NestedDecoder → α → Reader β}
    (hp : Relies n₁ p) (hq : ∀ v, Relies n₁ fun n => q n v) :
    Relies n₁ fun n => (p n).andThen (q n) := by
  constructor
  · intro nested hn s h
    cases hps : p n₁ s with
    | failed e s₁ =>
      have hnot : ¬TooDeep (p n₁ s) := by
        simpa only [Reader.andThen, hps, tooDeep_failed] using h
      simp only [Reader.andThen, hp.same nested hn s hnot, hps]
    | done v s₁ =>
      have hnot : ¬TooDeep (p n₁ s) := hps ▸ not_tooDeep_done v s₁
      simp only [Reader.andThen, hps] at h
      simp only [Reader.andThen, hp.same nested hn s hnot, hps]
      exact (hq v).same nested hn s₁ h
  · intro s h
    cases hps : p n₁ s with
    | failed e s₁ =>
      have htoo : TooDeep (p n₁ s) := by
        simpa only [Reader.andThen, hps, tooDeep_failed] using h
      obtain ⟨name, context, s', htoo, hplace⟩ := hp.place s htoo
      refine ⟨name, context, s', htoo, ?_⟩
      intro nested hn hat
      obtain ⟨s₂, hs₂⟩ := hplace nested hn hat
      exact ⟨s₂, by simp only [Reader.andThen, hs₂]⟩
    | done v s₁ =>
      simp only [Reader.andThen, hps] at h
      obtain ⟨name, context, s', htoo, hplace⟩ := (hq v).place s₁ h
      refine ⟨name, context, s', htoo, ?_⟩
      intro nested hn hat
      have hnot : ¬TooDeep (p n₁ s) := hps ▸ not_tooDeep_done v s₁
      simp only [Reader.andThen, hp.same nested hn s hnot, hps]
      exact hplace nested hn hat

/-- What changes the outcome of a reader, but not whether it gives up. -/
theorem of_outcome {p q : NestedDecoder → Reader α} (hp : Relies n₁ p)
    (hsame : ∀ nested s, p nested s = p n₁ s → q nested s = q n₁ s)
    (htoo : ∀ nested s, TooDeep (q nested s) ↔ TooDeep (p nested s)) : Relies n₁ q := by
  constructor
  · intro nested hn s h
    rw [htoo] at h
    exact hsame nested s (hp.same nested hn s h)
  · intro s h
    rw [htoo] at h
    obtain ⟨name, context, s', hs', hplace⟩ := hp.place s h
    refine ⟨name, context, s', hs', ?_⟩
    intro nested hn hat
    rw [htoo]
    exact hplace nested hn hat

theorem law (n₁ : NestedDecoder) :
    FieldLaw (fun {α} (p : NestedDecoder → Reader α) => Relies n₁ p) where
  done v := of_never (not_tooDeep_done v)
  taking n make := of_never (not_tooDeep_taking n make)
  failing kind cause := of_never fun s => not_tooDeep_fail s kind s.position cause
  faulting hf := of_never (not_tooDeep_faulting hf)
  andThen := andThen
  labelled _ hp := hp.of_outcome (fun _ _ h => by simp only [Reader.labelled, h])
    fun _ _ => tooDeep_labelled
  noted _ _ hp := hp.of_outcome (fun _ _ h => by simp only [Reader.noted, h])
    fun _ _ => tooDeep_noted
  consuming _ _ _ _ hp := hp.of_outcome (fun _ _ h => by simp only [Reader.consuming, h])
    fun _ _ => tooDeep_consuming

end Relies

end Reader

namespace Codec

open Reader

variable (c : Codec)

/-- Reads the slots of a record of the type, with the given reader of nested records. -/
def slotsReader (nested : NestedDecoder) (t : RecordType) (context : Option Context) :
    Reader (List Value) :=
  c.readFields nested t t.fields [] (.start (if c.isRoot t.name then none else context))

theorem relies_slotsReader (n₁ : NestedDecoder) (t : RecordType) (context : Option Context) :
    Relies n₁ fun nested => c.slotsReader nested t context := by
  apply (Relies.law n₁).readFields c (fun nested => nested) t t.fields (fun _ => True)
  · intro k _ context'
    trivial
  · intro f _ _ context' _
    exact Relies.nested f.type.name context'
  · trivial

/-- The outcome of reading a record depends on what is made of the nested record at the second
place. -/
def ComesTo (depth : Nat) (name : String) (context : Option Context) (s : Source)
    (name' : String) (context' : Option Context) (s' : Source) : Prop :=
  ∃ t nested, c.type? name = some t ∧
    (∀ n k x, (n, k, x) ≠ (name', context', s') → nested n k x = c.decodeRecord depth n k x) ∧
    c.slotsReader nested t context s ≠ c.slotsReader (c.decodeRecord depth) t context s

/-- At some moment of reading a record, `count` records are being read, each inside the one
before. -/
inductive Active : Nat → String → Option Context → Source → Nat → Prop
  | outermost (depth : Nat) (name : String) (context : Option Context) (s : Source) :
    Active (depth + 1) name context s 1
  | inside {depth count : Nat} {name name' : String} {context context' : Option Context}
    {s s' : Source} : c.ComesTo depth name context s name' context' s' →
    Active depth name' context' s' count → Active (depth + 1) name context s (count + 1)

variable {c} {name : String} {t : RecordType} {context : Option Context} {s : Source}

theorem tooDeep_decodeRecord_succ (ht : c.type? name = some t) {depth : Nat} :
    TooDeep (c.decodeRecord (depth + 1) name context s) ↔
      TooDeep (c.slotsReader (c.decodeRecord depth) t context s) := by
  rw [decodeRecord_succ c depth ht, slotsReader, type?_name ht, andThen]
  cases c.readFields (c.decodeRecord depth) t t.fields []
      (.start (if c.isRoot name then none else context)) s with
  | done slots s' => exact iff_of_false (not_tooDeep_done _ _) (not_tooDeep_done _ _)
  | failed e s' => rw [tooDeep_failed, tooDeep_failed]

theorem Active.le_levels {levels count : Nat} (h : c.Active levels name context s count) :
    count ≤ levels := by
  induction h with
  | outermost => exact Nat.le_add_left 1 _
  | inside _ _ ih => exact Nat.succ_le_succ ih

/-- If a record can be read with `n + 1` levels, then the nested records that its reading comes to
can be read with `n`. -/
theorem ComesTo.not_tooDeep {n depth : Nat} {name' : String} {context' : Option Context}
    {s' : Source} (h : c.ComesTo depth name context s name' context' s') (hle : n ≤ depth)
    (hn : ¬TooDeep (c.decodeRecord (n + 1) name context s)) :
    ¬TooDeep (c.decodeRecord n name' context' s') := by
  obtain ⟨t, nested, ht, helse, hdiffer⟩ := h
  intro htoo
  rw [tooDeep_decodeRecord_succ ht] at hn
  have hrelies := c.relies_slotsReader (c.decodeRecord n) t context
  have hdeeper : Extends (c.decodeRecord n) (c.decodeRecord depth) :=
    fun _ _ _ h => c.decodeRecord_mono hle h
  have hnested : Extends (c.decodeRecord n) nested := by
    intro n' k x hx
    have hplace : (n', k, x) ≠ (name', context', s') := by
      rintro ⟨⟩
      exact hx htoo
    rw [helse n' k x hplace]
    exact hdeeper n' k x hx
  apply hdiffer
  rw [hrelies.same nested hnested s hn, hrelies.same _ hdeeper s hn]

/-- If `n + 1` levels are too few for a record and more are enough, then its reading comes to a
nested record for which `n` are too few. -/
theorem exists_comesTo {n depth : Nat} (hle : n ≤ depth)
    (htoo : TooDeep (c.decodeRecord (n + 1) name context s))
    (hnot : ¬TooDeep (c.decodeRecord (depth + 1) name context s)) :
    ∃ name' context' s', c.ComesTo depth name context s name' context' s' ∧
      TooDeep (c.decodeRecord n name' context' s') ∧
      ¬TooDeep (c.decodeRecord depth name' context' s') := by
  classical
  cases ht : c.type? name with
  | none =>
    obtain ⟨s', hs'⟩ := htoo
    rw [decodeRecord, ht] at hs'
    cases hs'
  | some t =>
    rw [tooDeep_decodeRecord_succ ht] at htoo hnot
    obtain ⟨name', context', s', hplace, hfollow⟩ :=
      (c.relies_slotsReader (c.decodeRecord n) t context).place s htoo
    have hdeeper : Extends (c.decodeRecord n) (c.decodeRecord depth) :=
      fun _ _ _ h => c.decodeRecord_mono hle h
    refine ⟨name', context', s', ⟨t, ?_⟩, hplace, fun h => hnot (hfollow _ hdeeper h)⟩
    -- Giving up at that one place is enough to give up altogether.
    let nested : NestedDecoder := fun m k x =>
      if (m, k, x) = (name', context', s') then .failed (.fault .tooDeep) x else c.decodeRecord depth m k x
    have hnested : Extends (c.decodeRecord n) nested := by
      intro m k x hx
      have hne : (m, k, x) ≠ (name', context', s') := by
        rintro ⟨⟩
        exact hx hplace
      exact (if_neg hne).trans (hdeeper m k x hx)
    refine ⟨nested, ht, fun m k x hne => if_neg hne, ?_⟩
    intro heq
    apply hnot
    rw [← heq]
    exact hfollow nested hnested ⟨s', if_pos rfl⟩

/-- No more records are being read at any moment than a number of levels that is enough. -/
theorem Active.le {levels n count : Nat} (h : c.Active levels name context s count)
    (hn : ¬TooDeep (c.decodeRecord n name context s)) : count ≤ n := by
  rcases Nat.le_total levels n with hle | hle
  · exact h.le_levels.trans hle
  · induction h generalizing n with
    | outermost depth name context s =>
      cases n with
      | zero => exact absurd ⟨s, rfl⟩ hn
      | succ n => exact Nat.le_add_left 1 n
    | @inside depth count name _ context _ s _ hcomes _ ih =>
      cases n with
      | zero => exact absurd ⟨s, rfl⟩ hn
      | succ n =>
        have hle := Nat.le_of_succ_le_succ hle
        exact Nat.succ_le_succ (ih (hcomes.not_tooDeep hle hn) hle)

/-- A number of levels is enough for a record exactly if no more records are being read at any
moment. -/
theorem not_tooDeep_iff_active {levels n : Nat}
    (h : ¬TooDeep (c.decodeRecord levels name context s)) :
    ¬TooDeep (c.decodeRecord n name context s) ↔
      ∀ count, c.Active levels name context s count → count ≤ n := by
  constructor
  · intro hn count hactive
    exact hactive.le hn
  · intro hall htoo
    suffices hmore : c.Active levels name context s (n + 1) from
      absurd (hall (n + 1) hmore) (Nat.not_succ_le_self n)
    clear hall
    induction n generalizing levels name context s with
    | zero =>
      cases levels with
      | zero => exact absurd ⟨s, rfl⟩ h
      | succ levels => exact .outermost levels name context s
    | succ n ih =>
      cases levels with
      | zero => exact absurd ⟨s, rfl⟩ h
      | succ levels =>
        have hle : n ≤ levels := by
          by_contra hlt
          exact h (c.tooDeep_mono (by omega) htoo)
        obtain ⟨name', context', s', hcomes, htoo', hnot'⟩ := exists_comesTo hle htoo h
        exact .inside hcomes (ih hnot' htoo')

end Codec

end Savefile
