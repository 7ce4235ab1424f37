import Mathlib.Data.Finset.Prod
import Mathlib.Data.Fintype.Pigeonhole
import Savefile.Proofs.Locality

/-!
# How deep records nest

The reader of a record counts the levels of nested records and gives up when they run out. Which
level it is on has no other effect, and a record that is read inside a record of the same type at the
same place would be read forever. So no more levels are ever of use than there are pairs of a declared
type and a place in the input: with the limit that readers start from, they give up only on input
that no number of levels is enough for.
-/
namespace Savefile

/-- The sources differ in their notes only. -/
structure Source.Alike (s s' : Source) : Prop where
  rest : s.rest = s'.rest
  offset : s.offset = s'.offset
  seekable : s.seekable = s'.seekable

theorem Source.Alike.position {s s' : Source} (h : s.Alike s') : s.position = s'.position := by
  rw [Source.position, Source.position, h.offset, h.seekable]

theorem Source.Alike.note {s s' : Source} (h : s.Alike s') (n n' : Note) :
    (s.note n).Alike (s'.note n') := ⟨h.rest, h.offset, h.seekable⟩

/-- Two sources that are equally far from a third differ in their notes only. -/
theorem Source.Past.alike {start s s' : Source} {b b' : List UInt8} (h : start.Past s b)
    (h' : start.Past s' b') (hlen : s.rest.length = s'.rest.length) : s.Alike s' := by
  have happ : b ++ s.rest = b' ++ s'.rest := h.rest.symm.trans h'.rest
  have hb : b = b' ∧ s.rest = s'.rest := List.append_inj' happ hlen
  refine ⟨hb.2, ?_, h.seekable.trans h'.seekable.symm⟩
  rw [h.offset, h'.offset, hb.1]

namespace Reader

variable {α β : Type}

/-- The levels ran out. -/
def TooDeep (p : Decoding α) : Prop := ∃ s, p = .failed (.fault .tooDeep) s

theorem tooDeep_failed {e : DecodeStop} {s : Source} :
    TooDeep (.failed e s : Decoding α) ↔ e = .fault .tooDeep := by simp [TooDeep]

theorem not_tooDeep_done (v : α) (s : Source) : ¬TooDeep (.done v s : Decoding α) := by
  rintro ⟨s', h⟩
  cases h

theorem not_tooDeep_fail (s : Source) (kind : DecodeErrorKind) (offset : Int) (cause : Cause) :
    ¬TooDeep (s.fail kind offset cause : Decoding α) := by
  rintro ⟨s', h⟩
  cases h

theorem not_tooDeep_faulting {f : Fault} (hf : f ≠ .tooDeep) (s : Source) :
    ¬TooDeep (faulting f s : Decoding α) := by
  rintro ⟨s', h⟩
  cases h
  exact hf rfl

theorem not_tooDeep_taking (n : Nat) (make : List UInt8 → α) (s : Source) :
    ¬TooDeep (taking n make s) := by
  unfold taking
  split
  · exact not_tooDeep_done _ _
  · exact not_tooDeep_fail _ _ _ _

theorem tooDeep_labelled {label : DecodeError → DecodeError} {p : Reader α} {s : Source} :
    TooDeep (p.labelled label s) ↔ TooDeep (p s) := by
  unfold labelled
  cases hps : p s with
  | done v s' => simp [TooDeep]
  | failed e s' => cases e <;> simp [TooDeep, Stop.map]

theorem tooDeep_noted {note : Int → α → Note} {p : Reader α} {s : Source} :
    TooDeep (p.noted note s) ↔ TooDeep (p s) := by
  unfold noted
  cases hps : p s <;> simp [TooDeep]

theorem tooDeep_consuming {required : Prop} [Decidable required] {cause : Cause} {p : Reader α}
    {s : Source} : TooDeep (p.consuming required cause s) ↔ TooDeep (p s) := by
  unfold consuming
  cases hps : p s with
  | failed e s' => rfl
  | done v s' =>
    dsimp only
    split
    · exact iff_of_false (not_tooDeep_fail _ _ _ _) (not_tooDeep_done _ _)
    · rfl

/-- The second reader has more levels than the first: where the first does not run out of them, the
second does the same. Between the readers' start and where the first runs out, the second runs out
too or else `escape` holds. -/
structure Deepens (start : Source) (escape : Prop) (p q : Reader α) : Prop where
  same : ∀ s, ¬TooDeep (p s) → q s = p s
  past : ∀ s v s', p s = .done v s' → ∃ b, s.Past s' b
  tooDeep : ∀ s b, start.Past s b → TooDeep (p s) → TooDeep (q s) ∨ escape

namespace Deepens

variable {start : Source} {escape : Prop}

/-- A reader that never runs out of levels needs only to account for its bytes. -/
theorem of_never {p : Reader α} (h : ∀ s, ¬TooDeep (p s))
    (hpast : ∀ s v s', p s = .done v s' → ∃ b, s.Past s' b) : Deepens start escape p p :=
  ⟨fun _ _ => rfl, hpast, fun s _ _ hs => absurd hs (h s)⟩

theorem taking (n : Nat) (make : List UInt8 → α) :
    Deepens start escape (taking n make) (taking n make) := by
  apply of_never (not_tooDeep_taking n make)
  intro s v s' h
  obtain ⟨b, _, _, hb⟩ := taking_done h
  exact ⟨b, hb⟩

theorem andThen {p p' : Reader α} {q q' : α → Reader β} (hp : Deepens start escape p p')
    (hq : ∀ v, Deepens start escape (q v) (q' v)) :
    Deepens start escape (p.andThen q) (p'.andThen q') := by
  constructor
  · intro s h
    cases hps : p s with
    | failed e s₁ =>
      have hnot : ¬TooDeep (p s) := by
        simpa only [Reader.andThen, hps, tooDeep_failed] using h
      rw [Reader.andThen, Reader.andThen, hp.same s hnot, hps]
    | done v s₁ =>
      have hnot : ¬TooDeep (p s) := hps ▸ not_tooDeep_done v s₁
      have hqs : ¬TooDeep (q v s₁) := by simpa only [Reader.andThen, hps] using h
      rw [Reader.andThen, Reader.andThen, hp.same s hnot, hps]
      exact (hq v).same s₁ hqs
  · intro s w s₂ h
    cases hps : p s with
    | failed e s₁ => simp [Reader.andThen, hps] at h
    | done v s₁ =>
      simp only [Reader.andThen, hps] at h
      obtain ⟨b, hb⟩ := hp.past s v s₁ hps
      obtain ⟨b', hb'⟩ := (hq v).past s₁ w s₂ h
      exact ⟨b ++ b', hb.trans hb'⟩
  · intro s b hb h
    cases hps : p s with
    | failed e s₁ =>
      have ht : TooDeep (p s) := by simpa only [Reader.andThen, hps, tooDeep_failed] using h
      rcases hp.tooDeep s b hb ht with ⟨s', hs'⟩ | he
      · refine Or.inl ⟨s', ?_⟩
        rw [Reader.andThen, hs']
      · exact Or.inr he
    | done v s₁ =>
      have hnot : ¬TooDeep (p s) := hps ▸ not_tooDeep_done v s₁
      have ht : TooDeep (q v s₁) := by simpa only [Reader.andThen, hps] using h
      obtain ⟨b₁, hb₁⟩ := hp.past s v s₁ hps
      rw [Reader.andThen, hp.same s hnot, hps]
      exact (hq v).tooDeep s₁ _ (hb.trans hb₁) ht

theorem labelled {label : DecodeError → DecodeError} {p p' : Reader α}
    (h : Deepens start escape p p') :
    Deepens start escape (p.labelled label) (p'.labelled label) := by
  constructor
  · intro s hs
    rw [tooDeep_labelled] at hs
    rw [Reader.labelled, Reader.labelled, h.same s hs]
  · intro s v s' hs
    apply h.past s v s'
    unfold Reader.labelled at hs
    cases hps : p s <;> simp_all
  · intro s b hb hs
    rw [tooDeep_labelled] at hs ⊢
    exact h.tooDeep s b hb hs

theorem noted (note : Int → α → Note) {p p' : Reader α} (h : Deepens start escape p p') :
    Deepens start escape (p.noted note) (p'.noted note) := by
  constructor
  · intro s hs
    rw [tooDeep_noted] at hs
    rw [Reader.noted, Reader.noted, h.same s hs]
  · intro s v s' hs
    unfold Reader.noted at hs
    cases hps : p s with
    | failed e s₁ => simp [hps] at hs
    | done v₁ s₁ =>
      simp only [hps, Pass.done.injEq] at hs
      obtain ⟨b, hb⟩ := h.past s v₁ s₁ hps
      exact ⟨b, hs.2 ▸ hb.note _⟩
  · intro s b hb hs
    rw [tooDeep_noted] at hs ⊢
    exact h.tooDeep s b hb hs

theorem consuming (required : Prop) [Decidable required] (cause : Cause) {p p' : Reader α}
    (h : Deepens start escape p p') :
    Deepens start escape (p.consuming required cause) (p'.consuming required cause) := by
  constructor
  · intro s hs
    rw [tooDeep_consuming] at hs
    rw [Reader.consuming, Reader.consuming, h.same s hs]
  · intro s v s' hs
    apply h.past s v s'
    unfold Reader.consuming at hs
    cases hps : p s with
    | failed e s₁ => simp [hps] at hs
    | done v₁ s₁ =>
      simp only [hps] at hs
      split at hs
      · cases hs
      · exact hs
  · intro s b hb hs
    rw [tooDeep_consuming] at hs ⊢
    exact h.tooDeep s b hb hs

theorem law (start : Source) (escape : Prop) :
    Law (fun {α} (p q : Reader α) => Deepens start escape p q) where
  done v := of_never (not_tooDeep_done v) fun s _ _ h => by cases h; exact ⟨[], .refl s⟩
  taking := taking
  failing kind cause := of_never (fun s => not_tooDeep_fail s kind s.position cause)
    fun s _ _ h => by cases h
  faulting hf := of_never (not_tooDeep_faulting hf) fun s _ _ h => by cases h
  andThen := andThen
  labelled _ h := h.labelled
  noted := noted
  consuming required _ cause _ _ h := h.consuming required cause

end Deepens

/-- The two readings end in the same way, notes aside. -/
inductive Agrees : Decoding α → Decoding α → Prop
  | done (v : α) {s s' : Source} : s.Alike s' → Agrees (.done v s) (.done v s')
  | failed (e : DecodeStop) {s s' : Source} : s.Alike s' → Agrees (.failed e s) (.failed e s')

theorem Agrees.tooDeep_iff {p q : Decoding α} (h : Agrees p q) : TooDeep p ↔ TooDeep q := by
  cases h with
  | done v _ => exact iff_of_false (not_tooDeep_done _ _) (not_tooDeep_done _ _)
  | failed e _ => rw [tooDeep_failed, tooDeep_failed]

/-- Notes make no difference to the reader. -/
def Unnoted (p : Reader α) : Prop := ∀ s s', s.Alike s' → Agrees (p s) (p s')

namespace Unnoted

theorem taking (n : Nat) (make : List UInt8 → α) : Unnoted (taking n make) := by
  intro s s' h
  by_cases hn : n ≤ s.rest.length
  · have hn' : n ≤ s'.rest.length := h.rest ▸ hn
    rw [Reader.taking, Reader.taking, Source.take_of_le hn, Source.take_of_le hn', h.rest, h.offset]
    exact .done _ ⟨rfl, rfl, h.seekable⟩
  · have hn' : s'.rest.length < n := h.rest ▸ Nat.lt_of_not_le hn
    rw [Reader.taking, Reader.taking, Source.take_of_short (Nat.lt_of_not_le hn),
      Source.take_of_short hn', h.rest, h.position]
    exact .failed _ h

theorem andThen {p : Reader α} {q : α → Reader β} (hp : Unnoted p) (hq : ∀ v, Unnoted (q v)) :
    Unnoted (p.andThen q) := by
  intro s s' h
  have ha := hp s s' h
  unfold Reader.andThen
  generalize p s = x at ha ⊢
  generalize p s' = y at ha ⊢
  cases ha with
  | done v hs => exact hq v _ _ hs
  | failed e hs => exact .failed e hs

theorem labelled (label : DecodeError → DecodeError) {p : Reader α} (hp : Unnoted p) :
    Unnoted (p.labelled label) := by
  intro s s' h
  have ha := hp s s' h
  unfold Reader.labelled
  generalize p s = x at ha ⊢
  generalize p s' = y at ha ⊢
  cases ha with
  | done v hs => exact .done v hs
  | failed e hs => exact .failed (e.map label) hs

theorem noted (note : Int → α → Note) {p : Reader α} (hp : Unnoted p) : Unnoted (p.noted note) := by
  intro s s' h
  have ha := hp s s' h
  unfold Reader.noted
  generalize p s = x at ha ⊢
  generalize p s' = y at ha ⊢
  cases ha with
  | done v hs => exact .done v (hs.note _ _)
  | failed e hs => exact .failed e hs

theorem consuming (required : Prop) [Decidable required] (cause : Cause) {p : Reader α}
    (hp : Unnoted p) : Unnoted (p.consuming required cause) := by
  intro s s' h
  have ha := hp s s' h
  unfold Reader.consuming
  generalize p s = x at ha ⊢
  generalize p s' = y at ha ⊢
  cases ha with
  | failed e hs => exact .failed e hs
  | done v hs =>
    dsimp only
    rw [h.position, hs.position]
    split
    · exact .failed _ hs
    · exact .done v hs

theorem law : Law (fun {α} (p _ : Reader α) => Unnoted p) where
  done v := fun _ _ h => .done v h
  taking := taking
  failing kind cause := fun s s' h => by
    rw [failing, failing, h.position]
    exact .failed _ h
  faulting _ := fun _ _ h => .failed _ h
  andThen := andThen
  labelled _ h := h.labelled _
  noted note _ _ h := h.noted note
  consuming required _ cause _ _ h := h.consuming required cause

end Unnoted

end Reader

namespace Codec

open Reader

variable (c : Codec) {name : String} {context : Option Context} {s : Source}

theorem unnoted_decodeRecord (depth : Nat) (name : String) (context : Option Context) :
    Unnoted (c.decodeRecord depth name context) :=
  Unnoted.law.decodeRecord c (fun _ _ h => .failed _ h) depth name context

theorem deepens_decodeRecord (start : Source) (depth : Nat) (name : String)
    (context : Option Context) :
    Deepens start True (c.decodeRecord depth name context)
      (c.decodeRecord (depth + 1) name context) := by
  induction depth generalizing name context with
  | zero =>
    refine ⟨?_, ?_, fun _ _ _ _ => Or.inr trivial⟩
    · intro s h
      exact absurd ⟨s, rfl⟩ h
    · intro s v s' h
      cases h
  | succ depth ih =>
    exact (Deepens.law start True).decodeRecord_succ c name context
      fun _ _ f _ _ context' _ => ih f.type.name context'

/-- More levels change nothing where fewer are enough. -/
theorem decodeRecord_mono {d d' : Nat} (hd : d ≤ d')
    (h : ¬TooDeep (c.decodeRecord d name context s)) :
    c.decodeRecord d' name context s = c.decodeRecord d name context s := by
  induction hd with
  | refl => rfl
  | @step m hm ih =>
    rw [← ih] at h ⊢
    exact (c.deepens_decodeRecord s m name context).same s h

theorem tooDeep_mono {d d' : Nat} (hd : d ≤ d')
    (h : TooDeep (c.decodeRecord d' name context s)) :
    TooDeep (c.decodeRecord d name context s) := by
  by_contra hn
  rw [c.decodeRecord_mono hd hn] at h
  exact hn h

/-- The reader needs one level more than it has. -/
def Stuck (context : Option Context) (depth : Nat) (name : String) (s : Source) : Prop :=
  TooDeep (c.decodeRecord depth name context s) ∧
    ¬TooDeep (c.decodeRecord (depth + 1) name context s)

/-- Somewhere in the input the reader of a declared type needs one level more than it has. -/
def StuckWithin (start : Source) (context : Option Context) (depth : Nat) : Prop :=
  ∃ name s b, (c.schema.declared? name).isSome = true ∧ start.Past s b ∧ c.Stuck context depth name s

variable {c}

/-- A reader that needs one level more than it has comes to a nested record of which the same is
true, one level down. -/
theorem StuckWithin.pred (hl : c.schema.Linked) {start : Source} {d : Nat}
    (h : c.StuckWithin start context (d + 1)) : c.StuckWithin start context d := by
  obtain ⟨name, s, b, hname, hs, htoo, hnot⟩ := h
  have hdeep : Deepens start (c.StuckWithin start context d)
      (c.decodeRecord (d + 1) name context) (c.decodeRecord (d + 2) name context) := by
    apply (Deepens.law start _).decodeRecord_succ c name context
    intro t ht f hf hc context' hctx
    have hbelow := c.deepens_decodeRecord start d f.type.name context'
    refine ⟨hbelow.same, hbelow.past, ?_⟩
    intro s' b' hs' htoo'
    by_cases hmore : TooDeep (c.decodeRecord (d + 1) f.type.name context' s')
    · exact Or.inl hmore
    · rw [hctx (isRoot_eq_false hl hname)] at htoo' hmore
      exact Or.inr ⟨f.type.name, s', b', declared_of_type? hl ht f hf hc, hs', htoo', hmore⟩
  rcases hdeep.tooDeep s b hs htoo with htoo' | hwithin
  · exact absurd htoo' hnot
  · exact hwithin

theorem StuckWithin.below (hl : c.schema.Linked) {start : Source} {d e : Nat} (he : e ≤ d)
    (h : c.StuckWithin start context d) : c.StuckWithin start context e := by
  induction he with
  | refl => exact h
  | step _ ih => exact ih (h.pred hl)

/-- A reader is not stuck twice at the same place, so how far down it can be stuck is bounded by the
number of places. -/
theorem Stuck.lt (hl : c.schema.Linked) {d : Nat}
    (hname : (c.schema.declared? name).isSome = true) (h : c.Stuck context d name s) :
    d < c.schema.types.length * (s.rest.length + 1) := by
  by_contra hge
  have hwithin : c.StuckWithin s context d := ⟨name, s, [], hname, .refl s, h⟩
  have hbelow := fun e : Fin (d + 1) => hwithin.below hl (Nat.lt_succ_iff.mp e.isLt)
  choose names sources bytes hnames hsources hstuck using hbelow
  let places := (c.schema.types.map (·.name)).toFinset ×ˢ Finset.range (s.rest.length + 1)
  have hmem : ∀ e ∈ (Finset.univ : Finset (Fin (d + 1))),
      (names e, (sources e).rest.length) ∈ places := by
    intro e _
    have hmem := Schema.mem_names_of_isSome (hnames e)
    have hrest : (sources e).rest.length < s.rest.length + 1 := by
      rw [(hsources e).rest, List.length_append]
      omega
    simp only [places, Finset.mem_product, List.mem_toFinset, Finset.mem_range]
    exact ⟨hmem, hrest⟩
  have hcard : places.card < (Finset.univ : Finset (Fin (d + 1))).card := by
    have hnamesCard := List.toFinset_card_le (c.schema.types.map (·.name))
    rw [List.length_map] at hnamesCard
    rw [Finset.card_product, Finset.card_range, Finset.card_univ, Fintype.card_fin]
    have hmul := Nat.mul_le_mul_right (s.rest.length + 1) hnamesCard
    omega
  obtain ⟨i, _, j, _, hne, hij⟩ := Finset.exists_ne_map_eq_of_card_lt_of_maps_to hcard hmem
  rw [Prod.mk.injEq] at hij
  -- Of two readers stuck at one place, the one that has more levels is not stuck.
  have hclash : ∀ i j : Fin (d + 1), i < j → names i = names j →
      (sources i).rest.length = (sources j).rest.length → False := by
    intro i j hlt hn hr
    have halike := (hsources i).alike (hsources j) hr
    have hi := (hstuck i).2
    rw [hn, ((c.unnoted_decodeRecord _ _ _) _ _ halike).tooDeep_iff] at hi
    exact hi (c.tooDeep_mono (Nat.succ_le_of_lt hlt) (hstuck j).1)
  rcases lt_or_gt_of_ne hne with hlt | hlt
  · exact hclash i j hlt hij.1 hij.2
  · exact hclash j i hlt hij.1.symm hij.2.symm

/-- A reader of a declared type that runs out of as many levels as there are places runs out of any
number of levels. -/
theorem tooDeep_declared (hl : c.schema.Linked) {levels : Nat}
    (hname : (c.schema.declared? name).isSome = true)
    (hlevels : c.schema.types.length * (s.rest.length + 1) ≤ levels)
    (h : TooDeep (c.decodeRecord levels name context s)) (d : Nat) :
    TooDeep (c.decodeRecord d name context s) := by
  have hup : ∀ k, TooDeep (c.decodeRecord (levels + k) name context s) := by
    intro k
    induction k with
    | zero => exact h
    | succ k ih =>
      by_contra hn
      have hlt := Stuck.lt hl hname ⟨ih, hn⟩
      omega
  exact c.tooDeep_mono (Nat.le_add_left d levels) (hup d)

/-- As many levels as there are places in the input, and one for the record itself, are enough for a
reader unless no number is. -/
theorem tooDeep_of_places (hl : c.schema.Linked)
    (h : TooDeep (c.decodeRecord (c.schema.types.length * (s.rest.length + 1) + 1) name context s))
    (d : Nat) : TooDeep (c.decodeRecord d name context s) := by
  set levels := c.schema.types.length * (s.rest.length + 1) with hlevels
  have hdeep : Deepens s False (c.decodeRecord (levels + 1) name context)
      (c.decodeRecord (levels + d + 1) name context) := by
    apply (Deepens.law s False).decodeRecord_succ c name context
    intro t ht f hf hc context' _
    have hname := declared_of_type? hl ht f hf hc
    refine ⟨fun s' h' => c.decodeRecord_mono (Nat.le_add_right _ _) h',
      (c.deepens_decodeRecord s levels f.type.name context').past, ?_⟩
    intro s' b hs' htoo
    refine Or.inl (tooDeep_declared hl hname ?_ htoo _)
    rw [hlevels, hs'.rest, List.length_append]
    exact Nat.mul_le_mul_left _ (by omega)
  rcases hdeep.tooDeep s [] (.refl s) h with htoo | hf
  · exact c.tooDeep_mono (by omega) htoo
  · exact hf.elim

/-- The limit that readers start from is as good as any number of levels. -/
theorem decodeRecord_depthLimit (hl : c.schema.Linked) {d : Nat}
    (h : ¬TooDeep (c.decodeRecord d name context s)) :
    c.decodeRecord (c.depthLimit s.rest.length) name context s =
      c.decodeRecord d name context s := by
  have hplaces : c.schema.types.length * (s.rest.length + 1) + 1 ≤ c.depthLimit s.rest.length := by
    unfold depthLimit
    have hmul : c.schema.types.length * (s.rest.length + 1) ≤
        (s.rest.length + 1) * (c.schema.types.length + 1) := by
      rw [Nat.mul_comm]
      exact Nat.mul_le_mul_left _ (Nat.le_succ _)
    rw [Nat.mul_assoc]
    omega
  have hlimit : ¬TooDeep (c.decodeRecord (c.depthLimit s.rest.length) name context s) :=
    fun htoo => h (tooDeep_of_places hl (c.tooDeep_mono hplaces htoo) d)
  rcases Nat.le_total d (c.depthLimit s.rest.length) with hle | hle
  · exact c.decodeRecord_mono hle h
  · exact (c.decodeRecord_mono hle hlimit).symm

variable {data : List UInt8} {r : Record}

theorem done_of_decodePrefix {n : Nat} (h : c.decodePrefix data = .ok (r, n)) :
    ∃ d s', c.decodeRecord d c.schema.root.name none (.ofBytes data) = .done r s' ∧
      s'.offset = n := by
  unfold decodePrefix decodeFrom decodeType at h
  cases hd : c.decodeRecord (c.depthLimit (Source.ofBytes data).rest.length)
      c.schema.root.name none (.ofBytes data) with
  | failed e s' => simp [hd] at h
  | done r' s' =>
    simp only [hd, Except.ok.injEq, Prod.mk.injEq] at h
    exact ⟨_, s', h.1 ▸ hd, h.2⟩

theorem failed_of_decodePrefix {e : DecodeStop} (h : c.decodePrefix data = .error e) :
    ∃ d s', c.decodeRecord d c.schema.root.name none (.ofBytes data) = .failed e s' := by
  unfold decodePrefix decodeFrom decodeType at h
  cases hd : c.decodeRecord (c.depthLimit (Source.ofBytes data).rest.length)
      c.schema.root.name none (.ofBytes data) with
  | done r' s' => simp [hd] at h
  | failed e' s' =>
    simp only [hd, Except.error.injEq] at h
    exact ⟨_, s', h ▸ hd⟩

/-- To know what a reading gives, it is enough to know it for some number of levels. -/
theorem decodeType_of_done (hl : c.schema.Linked) {d : Nat} {name : String}
    {context : Option Context} {s s' : Source}
    (h : c.decodeRecord d name context s = .done r s') :
    c.decodeType name context s =
      .done r (s'.note (.decodedRecord name (s'.position - s.position))) := by
  have hnot : ¬TooDeep (c.decodeRecord d name context s) := by
    rw [h]
    exact not_tooDeep_done r s'
  have hd := decodeRecord_depthLimit hl hnot
  rw [h] at hd
  simp only [decodeType, hd]

theorem decodePrefix_of_done (hl : c.schema.Linked) {d : Nat} {s' : Source}
    (h : c.decodeRecord d c.schema.root.name none (.ofBytes data) = .done r s') :
    c.decodePrefix data = .ok (r, s'.offset) := by
  rw [decodePrefix, decodeFrom, decodeType_of_done hl h]
  rfl

theorem decodePrefix_of_failed (hl : c.schema.Linked) {d : Nat} {s' : Source} {e : DecodeStop}
    (he : e ≠ .fault .tooDeep)
    (h : c.decodeRecord d c.schema.root.name none (.ofBytes data) = .failed e s') :
    c.decodePrefix data = .error e := by
  have hnot : ¬TooDeep (c.decodeRecord d c.schema.root.name none (.ofBytes data)) := by
    rw [h, tooDeep_failed]
    exact he
  have hd := decodeRecord_depthLimit hl hnot
  rw [h] at hd
  unfold decodePrefix decodeFrom decodeType
  rw [hd]

end Codec

end Savefile
