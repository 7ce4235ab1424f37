import Savefile.Proofs.Culprit

/-!
# How much work a count can ask for

A count is read from the input and may be anything. Up to a limit as many elements are read as it
says, and beyond the limit each element has to take some input. So however large the count, the
elements that are read are no more than the limit or the bytes that are left, and a list that was read
is no longer than either.
-/
namespace Savefile

/-- The count that was asked for, if the elements take no input. -/
def Cause.emptyCount? : Cause → Option Nat
  | .emptyElement _ _ count => some count
  | _ => none

theorem Source.emptyCount?_shortage (s : Source) : s.shortage.emptyCount? = none := by
  unfold shortage
  split <;> rfl

theorem Value.eq_list_of_isList {v : Value} (h : v.isList = true) : ∃ items, v = .list items := by
  cases v with
  | list items => exact ⟨items, rfl⟩
  | null => cases h
  | scalar x => cases h
  | record u slots => cases h
  | foreign _ _ => cases h

namespace Codec

open Reader Value

/-- Reads elements as `readElements` does, and says how many were tried. -/
def readElementsCounted (read : Reader Value) (r : Repetition) (count : Nat) :
    Nat → List Value → Source → Decoding (List Value) × Nat
  | 0, items, s => (.done items.reverse s, 0)
  | left + 1, items, s =>
    match read s with
    | .failed stop s' => (.failed (stop.map (.inElement (count - (left + 1)))) s', 1)
    | .done v s' =>
      if emptyElementLimit < count ∧ s'.position = s.position then
        (s'.fail .expression s.position (.emptyElement r.kind r.expr.source count), 1)
      else
        let rest := readElementsCounted read r count left (v :: items) s'
        (rest.1, rest.2 + 1)

section Counted

variable (read : Reader Value) (r : Repetition) (count left : Nat) (items : List Value)
variable (s : Source)

theorem readElementsCounted_value :
    (readElementsCounted read r count left items s).1 = readElements read r count left items s := by
  induction left generalizing items s with
  | zero => rfl
  | succ left ih =>
    unfold readElementsCounted readElements
    cases read s with
    | failed stop s' => rfl
    | done v s' =>
      dsimp only
      split
      · rfl
      · exact ih (v :: items) s'

theorem readElementsCounted_le_left :
    (readElementsCounted read r count left items s).2 ≤ left := by
  induction left generalizing items s with
  | zero => exact Nat.le_refl 0
  | succ left ih =>
    unfold readElementsCounted
    cases read s with
    | failed stop s' => exact Nat.le_add_left 1 left
    | done v s' =>
      dsimp only
      split
      · exact Nat.le_add_left 1 left
      · exact Nat.add_le_add_right (ih (v :: items) s') 1

/-- In a long list each element but the last that is tried takes some input. -/
theorem readElementsCounted_le_rest (hlong : emptyElementLimit < count)
    (hpast : ∀ s v s', read s = .done v s' → ∃ b, s.Past s' b) :
    (readElementsCounted read r count left items s).2 ≤ s.rest.length + 1 := by
  induction left generalizing items s with
  | zero => exact Nat.zero_le _
  | succ left ih =>
    unfold readElementsCounted
    cases hread : read s with
    | failed stop s' => exact Nat.le_add_left 1 _
    | done v s' =>
      dsimp only
      split
      · exact Nat.le_add_left 1 _
      · rename_i hguard
        obtain ⟨b, hb⟩ := hpast s v s' hread
        have hne := hb.ne_nil_of_position fun hpos => hguard ⟨hlong, hpos⟩
        have hpos : 0 < b.length := List.length_pos_iff.mpr hne
        have hrest : s.rest.length = b.length + s'.rest.length := by
          rw [hb.rest, List.length_append]
        have hnext := ih (v :: items) s'
        dsimp only
        omega

/-- The elements that are tried are those that the reader comes to. -/
theorem comesToElement_iff_counted (hleft : left ≤ count) (i : Nat) :
    (∃ x, ComesToElement read count left s i x) ↔
      count - left ≤ i ∧ i < count - left + (readElementsCounted read r count left items s).2 := by
  induction left generalizing items s with
  | zero =>
    constructor
    · rintro ⟨x, hx⟩
      cases hx
    · rintro ⟨hle, hlt⟩
      exact absurd hlt (Nat.not_lt.mpr hle)
  | succ left ih =>
    have hnext : count - left = count - (left + 1) + 1 := by omega
    have hhere : i = count - (left + 1) → ∃ x, ComesToElement read count (left + 1) s i x := by
      rintro rfl
      exact ⟨s, .here left s⟩
    unfold readElementsCounted
    -- If the reader stops at this element, it comes to no other.
    have hstop : (∀ v s', read s = .done v s' →
        emptyElementLimit < count ∧ s'.position = s.position) →
        ((∃ x, ComesToElement read count (left + 1) s i x) ↔
          count - (left + 1) ≤ i ∧ i < count - (left + 1) + 1) := by
      intro hempty
      constructor
      · rintro ⟨x, hx⟩
        cases hx with
        | here => omega
        | later hread hguard _ => exact absurd (hempty _ _ hread) hguard
      · intro hi
        exact hhere (by omega)
    cases hread : read s with
    | failed stop s' => exact hstop fun v s₁ h => by simp [hread] at h
    | done v s' =>
      dsimp only
      split
      · rename_i hempty
        apply hstop
        intro w s₁ h
        rw [hread] at h
        cases h
        exact hempty
      · rename_i hguard
        have hrest := ih (v :: items) s' (Nat.le_of_succ_le hleft)
        rw [hnext] at hrest
        dsimp only
        constructor
        · rintro ⟨x, hx⟩
          cases hx with
          | here => omega
          | later hread' _ hcomes =>
            rw [hread] at hread'
            cases hread'
            have hi := hrest.mp ⟨x, hcomes⟩
            omega
        · rintro ⟨hle, hlt⟩
          by_cases hi : i = count - (left + 1)
          · exact hhere hi
          · obtain ⟨x, hcomes⟩ := hrest.mpr ⟨by omega, by omega⟩
            exact ⟨x, .later hread hguard hcomes⟩

end Counted

variable {c : Codec} {m : Moment}

/-- However large the count, no more elements are tried than the limit or than the bytes that are
left, and one. -/
theorem readElementsCounted_le (c : Codec) (m : Moment) (r : Repetition) (count : Nat) :
    (readElementsCounted (c.elementReader m) r count count [] m.source).2 ≤
      max emptyElementLimit (m.source.rest.length + 1) := by
  by_cases hlong : emptyElementLimit < count
  · have hrest := readElementsCounted_le_rest (c.elementReader m) r count count [] m.source hlong
      fun _ _ _ => elementReader_past
    exact Nat.le_trans hrest (Nat.le_max_right _ _)
  · have hleft := readElementsCounted_le_left (c.elementReader m) r count count [] m.source
    exact Nat.le_trans hleft (Nat.le_trans (Nat.le_of_not_lt hlong) (Nat.le_max_left _ _))

/-- Elements that each take up a cell take up as many cells as there are elements. -/
theorem length_le_itemCells {f : Field} {items : List Value}
    (h : ∀ v ∈ items, c.cells f v ≠ []) : items.length ≤ (c.itemCells f items).length := by
  induction items with
  | nil => exact Nat.zero_le _
  | cons v vs ih =>
    obtain ⟨hv, hvs⟩ := List.forall_mem_cons.mp h
    have hpos : 0 < (c.cells f v).length := List.length_pos_iff.mpr hv
    have hrest := ih hvs
    rw [itemCells, List.length_append, List.length_cons]
    omega

/-- A long list was read from at least as many bytes as it has elements. -/
theorem length_le_of_readAt {items : List Value} {s' : Source}
    (h : c.readAt m = .done (.list items) s') :
    ∃ b, m.source.Past s' b ∧ (emptyElementLimit < items.length → items.length ≤ b.length) := by
  cases hlisted : m.listed with
  | false =>
    -- A single value is never a list.
    rw [readAt_single hlisted] at h
    obtain ⟨hholds, -⟩ := readElement_sound (decodeRecord_sound c m.levels) h
    cases hholds
  | true =>
    rw [readAt_listed hlisted] at h
    obtain ⟨hfits, -, b, hb, hspells⟩ := readField_sound (decodeRecord_sound c m.levels) h
    refine ⟨b, hb, ?_⟩
    intro hlong
    cases hfits with
    | single _ hholds => cases hholds
    | list _ _ _ hcells =>
      rw [hspells.length_eq, cells]
      exact length_le_itemCells (hcells hlong)

theorem decodeRecord_of_decodeType {name : String} {context : Option Context} {s s' : Source}
    {record : Record} (h : c.decodeType name context s = .done record s') :
    ∃ s₁, c.decodeRecord (c.depthLimit s.rest.length) name context s = .done record s₁ := by
  unfold decodeType at h
  cases hd : c.decodeRecord (c.depthLimit s.rest.length) name context s with
  | failed stop s₁ => simp [hd] at h
  | done r s₁ =>
    simp only [hd, Pass.done.injEq] at h
    exact ⟨s₁, by rw [h.1]⟩

/-- A count cannot make reading go on for nothing. Of any list that a reading comes to, whatever its
count, no more elements are tried than the limit or the bytes that are left there, and one; and any
list in a record that was read and is longer than the limit was read from as many bytes at least. -/
theorem counts_bounded (c : Codec) (name : String) (context : Option Context) (s : Source) :
    (∀ path m r count,
      c.Meets (.ofRecord name context (c.depthLimit s.rest.length) s) path m → m.listed = true →
      m.field.repetition = some r → r.expr.evalCount m.frame.scope = .ok count →
      ∃ tried, readElementsCounted (c.elementReader m) r count count [] m.source =
          (readElements (c.elementReader m) r count count [] m.source, tried) ∧
        c.readAt m = (readElements (c.elementReader m) r count count [] m.source).map .list ∧
        (∀ i, (∃ x, ComesToElement (c.elementReader m) count count m.source i x) ↔ i < tried) ∧
        tried ≤ max 65536 (m.source.rest.length + 1)) ∧
    ∀ record s', c.decodeType name context s = .done record s' →
      ∀ p ∈ slotPlaces record.type.fields record.slots, ∀ items, p.value = .list items →
        (∃ m x b, c.Meets (.ofRecord name context (c.depthLimit s.rest.length) s) p.path m ∧
          m.field = p.field ∧ c.readAt m = .done (.list items) x ∧ m.source.Past x b ∧
          (65536 < items.length → items.length ≤ b.length)) ∧
        items.length ≤ max 65536 s.rest.length := by
  constructor
  · intro path m r count _ hlisted hr hcount
    have hcomes := comesToElement_iff_counted (c.elementReader m) r count count [] m.source
      (Nat.le_refl count)
    rw [Nat.sub_self] at hcomes
    refine ⟨_, Prod.ext (readElementsCounted_value ..) rfl, readAt_counted hlisted hr hcount, ?_,
      c.readElementsCounted_le m r count⟩
    intro i
    simpa using hcomes i
  · intro record s' h p hp items hitems
    obtain ⟨s₁, hrecord⟩ := decodeRecord_of_decodeType h
    have hread : c.readAt (.ofRecord name context (c.depthLimit s.rest.length) s) =
        .done record.toValue s₁ := by
      rw [readAt_ofRecord, hrecord]
      rfl
    have hplaces : p ∈ places (Moment.ofRecord name context (c.depthLimit s.rest.length) s).field
        false record.toValue := by
      rw [Record.toValue, places]
      exact List.mem_cons_of_mem _ hp
    obtain ⟨m, x, hmeets, hfield, -, hvalue⟩ :=
      readsAt_of_done (fun hlisted => by cases hlisted) hread p hplaces
    rw [hitems] at hvalue
    obtain ⟨b, hb, hlong⟩ := length_le_of_readAt hvalue
    refine ⟨⟨m, x, b, hmeets, hfield, hvalue, hb, hlong⟩, ?_⟩
    -- The bytes of the list lie in the input of the record, behind those that come before it.
    obtain ⟨b', hb'⟩ := hmeets.past
    have hwhole : b.length ≤ s.rest.length := by
      have hrest := (hb'.trans hb).rest
      have hsource : (Moment.ofRecord name context (c.depthLimit s.rest.length) s).source = s := rfl
      rw [hsource] at hrest
      rw [hrest, List.length_append, List.length_append]
      omega
    by_cases hlen : 65536 < items.length
    · exact Nat.le_trans (Nat.le_trans (hlong hlen) hwhole) (Nat.le_max_right _ _)
    · exact Nat.le_trans (Nat.le_of_not_lt hlen) (Nat.le_max_left _ _)

/-- A fault for elements that take no input is one of a list with the count that the cause names. -/
theorem Unreadable.count_eq {kind : DecodeErrorKind} {cause : Cause} {count : Nat}
    (h : c.Unreadable m kind cause) (hcount : cause.emptyCount? = some count) :
    ∃ r, m.listed = true ∧ m.field.repetition = some r ∧
      r.expr.evalCount m.frame.scope = .ok count := by
  cases h with
  | scalar =>
    rw [Source.emptyCount?_shortage] at hcount
    cases hcount
  | room =>
    rw [Source.emptyCount?_shortage] at hcount
    cases hcount
  | condition => cases hcount
  | count => cases hcount
  | emptyElements hlisted hr heval _ _ _ =>
    cases hcount
    exact ⟨_, hlisted, hr, heval⟩

/-- With a count of 2 to the power of 62 and three bytes left, reading stops at once; with a count of
three the list is read. -/
theorem counts_bounded_huge_count :
    ∃ schema c, Schema.parse ("items:\n- id: n\n  type: u64\n- id: xs\n  type: u8\n" ++
        "  if: n < 9\n  repeat: Count(n)").toUTF8.toList = .ok schema ∧
      compile (some schema) .strict = .ok c ∧
      (∃ path m r, c.Meets (.ofRecord c.schema.root.name none (c.depthLimit 11)
          (.ofBytes [0, 0, 0, 0, 0, 0, 0, 64, 1, 2, 3])) path m ∧
        m.listed = true ∧ m.field.repetition = some r ∧
        r.expr.evalCount m.frame.scope = .ok 4611686018427387904 ∧
        (readElementsCounted (c.elementReader m) r 4611686018427387904 4611686018427387904 []
          m.source).2 ≤ max 65536 (m.source.rest.length + 1)) ∧
      ∃ record s' p items, c.decodeType c.schema.root.name none
          (.ofBytes [3, 0, 0, 0, 0, 0, 0, 0, 7, 8, 9]) = .done record s' ∧
        p ∈ slotPlaces record.type.fields record.slots ∧ p.value = .list items ∧
        items.length ≤ max 65536 11 := by
  refine exists_of_parse (fun c => (failure? (c.decodeType c.schema.root.name none
    (.ofBytes [0, 0, 0, 0, 0, 0, 0, 64, 1, 2, 3])).result).bind fun e =>
      (c.decodeType c.schema.root.name none
        (.ofBytes [3, 0, 0, 0, 0, 0, 0, 0, 7, 8, 9])).result.toOption.map fun r =>
          (e.cause.emptyCount?, (slotPlaces r.type.fields r.slots).any fun p => p.value.isList))
    (some 4611686018427387904, true) (by decide +kernel) ?_
  intro schema c hs hc h
  obtain ⟨e, he, h⟩ := Option.bind_eq_some_iff.mp h
  obtain ⟨r, hr, h⟩ := Option.map_eq_some_iff.mp h
  rw [Prod.mk.injEq, List.any_eq_true] at h
  obtain ⟨hcause, p, hp, hlist⟩ := h
  have hfailed := Pass.eq_failed_of_result (eq_error_of_failure? he)
  have hdone := Pass.eq_done_of_result (eq_ok_of_toOption hr)
  refine ⟨?_, ?_⟩
  · obtain ⟨m, hmeets, hfault⟩ : ∃ m, c.Meets (.ofRecord c.schema.root.name none (c.depthLimit 11)
        (.ofBytes [0, 0, 0, 0, 0, 0, 0, 64, 1, 2, 3])) e.path m ∧ c.Unreadable m e.kind e.cause := by
      rcases stopsAtUnreadable_of_decodeType (.of_parse hs) hc c.type?_root hfailed with
        hdeep | ⟨e', m, he', hmeets, hfault, -⟩
      · cases hdeep
      · cases he'
        exact ⟨m, hmeets, hfault⟩
    obtain ⟨rep, hlisted, hrep, hcount⟩ := hfault.count_eq hcause
    obtain ⟨tried, hrun, -, -, hle⟩ := (counts_bounded c c.schema.root.name none
      (.ofBytes [0, 0, 0, 0, 0, 0, 0, 64, 1, 2, 3])).1 e.path m rep _ hmeets hlisted hrep hcount
    refine ⟨e.path, m, rep, hmeets, hlisted, hrep, hcount, ?_⟩
    rw [hrun]
    exact hle
  · obtain ⟨items, hitems⟩ := Value.eq_list_of_isList hlist
    exact ⟨r, _, p, items, hdone, hp, hitems, ((counts_bounded c c.schema.root.name none
      (.ofBytes [3, 0, 0, 0, 0, 0, 0, 0, 7, 8, 9])).2 r _ hdone p hp items hitems).2⟩

end Codec

end Savefile
