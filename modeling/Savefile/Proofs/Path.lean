import Savefile.Proofs.Course
import Savefile.Proofs.WellFormed

/-!
# Paths of errors

The path of an error is put together from the inside out, one step at a time. For fields with
identifiers the text that comes out is the plain one: the fields in their order with a dot between
them, each with the index of an element behind it where one was entered. And the path of whatever a
reading comes to resolves from the type of the record that is read.
-/
namespace Savefile

/-- A part of a path: a field, and an element of its list if the path goes through one. -/
structure Segment where
  id : String
  index : Option Nat

namespace Segment

/-- The steps that a part of a path stands for. -/
def steps (seg : Segment) : List PathStep := .field seg.id :: (seg.index.map .index).toList

def text (seg : Segment) : String := seg.id ++ seg.index.elim "" fun i => "[" ++ toString i ++ "]"

/-- The parts of a path with dots between them. -/
def render (segments : List Segment) : String := ".".intercalate (segments.map text)

end Segment

namespace PathStep

/-- The text is not empty and does not start like an index. -/
def StartsField (s : String) : Prop := ∃ c cs, s.toList = c :: cs ∧ c ≠ '['

theorem StartsField.append {s : String} (h : StartsField s) (t : String) : StartsField (s ++ t) := by
  obtain ⟨c, cs, hs, hc⟩ := h
  exact ⟨c, cs ++ t.toList, by simp [hs], hc⟩

theorem startsField_of_isIdentifier {id : String} (h : Text.isIdentifier id = true) :
    StartsField id := by
  unfold Text.isIdentifier at h
  cases hid : id.toList with
  | nil =>
    rw [hid] at h
    cases h
  | cons c cs =>
    refine ⟨c, cs, hid, ?_⟩
    rintro rfl
    rw [hid, Text.isIdentifierChars, Bool.and_eq_true] at h
    exact absurd h.1 (by decide)

theorem join_empty (step : PathStep) : step.join "" = step.text := by simp [join]

/-- What follows a field or an index and starts with a field is set off by a dot. -/
theorem join_field {rest : String} (h : StartsField rest) (step : PathStep) :
    step.join rest = step.text ++ "." ++ rest := by
  obtain ⟨c, cs, hrest, hc⟩ := h
  have hne : rest.isEmpty = false := by
    rw [String.isEmpty_eq_false_iff]
    rintro rfl
    cases hrest
  have hbracket : rest.startsWith "[" = false := by
    rw [Bool.eq_false_iff, ne_eq, String.startsWith_string_iff, hrest]
    simpa using hc.symm
  simp [join, hne, hbracket]

/-- An index follows a field directly. -/
theorem join_index (step : PathStep) (i : Nat) (rest : String) :
    step.join ("[" ++ toString i ++ "]" ++ rest) =
      step.text ++ ("[" ++ toString i ++ "]" ++ rest) := by
  have hne : ("[" ++ toString i ++ "]" ++ rest).isEmpty = false := by
    rw [String.isEmpty_eq_false_iff]
    intro h
    have hlist := congrArg String.toList h
    simp at hlist
  have hbracket : ("[" ++ toString i ++ "]" ++ rest).startsWith "[" = true := by
    rw [String.startsWith_string_iff]
    simp
  rw [join, if_neg (Bool.eq_false_iff.mp hne), if_pos hbracket]

theorem startsField_render {seg : Segment} {segments : List Segment}
    (h : Text.isIdentifier seg.id = true) : StartsField (Segment.render (seg :: segments)) := by
  have htext : StartsField seg.text := (startsField_of_isIdentifier h).append _
  unfold Segment.render
  cases segments with
  | nil => simpa using htext
  | cons next segments =>
    rw [List.map_cons, List.map_cons, String.intercalate_cons_cons]
    exact (htext.append _).append _

/-- Put together from the inside out, a path of fields with identifiers is its parts with dots
between them. -/
theorem render_steps (segments : List Segment)
    (h : ∀ seg ∈ segments, Text.isIdentifier seg.id = true) :
    render (segments.flatMap Segment.steps) = Segment.render segments := by
  induction segments with
  | nil => rfl
  | cons seg segments ih =>
    obtain ⟨-, hrest⟩ := List.forall_mem_cons.mp h
    have hjoin : ∀ step : PathStep, step.join (render (segments.flatMap Segment.steps)) =
        step.text ++ (if segments = [] then "" else "." ++ Segment.render segments) := by
      intro step
      rw [ih hrest]
      cases segments with
      | nil => exact (join_empty step).trans (by simp)
      | cons next segments =>
        rw [join_field (startsField_render (hrest next (List.mem_cons_self ..))), if_neg (by simp),
          String.append_assoc]
    have hrender : Segment.render (seg :: segments) =
        seg.text ++ (if segments = [] then "" else "." ++ Segment.render segments) := by
      unfold Segment.render
      cases segments with
      | nil => simp
      | cons next segments =>
        rw [List.map_cons, List.map_cons, String.intercalate_cons_cons, if_neg (by simp),
          String.append_assoc]
    rw [List.flatMap_cons, hrender]
    cases hindex : seg.index with
    | none =>
      have hsteps : seg.steps = [.field seg.id] := by simp [Segment.steps, hindex]
      have htext : seg.text = seg.id := by simp [Segment.text, hindex]
      rw [hsteps, htext]
      exact hjoin (.field seg.id)
    | some i =>
      have hsteps : seg.steps = [.field seg.id, .index i] := by simp [Segment.steps, hindex]
      have htext : seg.text = seg.id ++ ("[" ++ toString i ++ "]") := by
        simp [Segment.text, hindex]
      have hinner := hjoin (.index i)
      have houter : render (seg.steps ++ segments.flatMap Segment.steps) =
          (field seg.id).join ((index i).join (render (segments.flatMap Segment.steps))) := by
        rw [hsteps]
        rfl
      rw [houter, hinner, text, join_index, htext, text, ← String.append_assoc]

end PathStep

namespace Codec

/-- The path leads from a record of the type to the field: each part names a field of the type
reached so far, an index stands only behind a repeated field, and all but the last part lead through
a composite field, into an element if it is repeated. -/
inductive Resolves (c : Codec) : RecordType → List Segment → Field → Prop
  | last {t : RecordType} {f : Field} {index : Option Nat} : f ∈ t.fields →
      (index.isSome = true → f.repetition.isSome = true) → Resolves c t [⟨f.id, index⟩] f
  | through {t u : RecordType} {f g : Field} {index : Option Nat} {segments : List Segment} :
      f ∈ t.fields → index.isSome = f.repetition.isSome → f.type.kind.isComposite = true →
      c.type? f.type.name = some u → Resolves c u segments g →
      Resolves c t (⟨f.id, index⟩ :: segments) g

variable {c : Codec} {m m' : Moment} {path : List PathStep}

/-- A path from a value on: perhaps the index of an element, then a path from the record that stands
there, if there is more. -/
structure ResolvesFrom (c : Codec) (m : Moment) (path : List PathStep) (g : Field)
    (index : Option Nat) (segments : List Segment) : Prop where
  path_eq : path = (index.map .index).toList ++ segments.flatMap Segment.steps
  repeated : index.isSome = true → m.listed = true
  stops : segments = [] → g = m.field
  goesOn : segments ≠ [] → index.isSome = m.listed ∧ m.field.type.kind.isComposite = true ∧
    ∃ t, c.type? m.field.type.name = some t ∧ c.Resolves t segments g

/-- Whatever a reading comes to, its path resolves. -/
theorem Meets.resolvesFrom (h : c.Meets m path m') :
    ∃ index segments, c.ResolvesFrom m path m'.field index segments := by
  induction h with
  | itself m => exact ⟨none, [], by simp, by simp, fun _ => rfl, by simp⟩
  | @element m m' _ _ i _ _ hlisted _ _ _ _ ih =>
    obtain ⟨index, segments, hpath, hrepeated, hstops, hgoes⟩ := ih
    obtain rfl : index = none := by
      rw [← Option.not_isSome_iff_eq_none]
      exact fun hsome => absurd (hrepeated hsome) (by simp [Moment.element])
    refine ⟨some i, segments, ?_, fun _ => hlisted, hstops, ?_⟩
    · rw [hpath]
      rfl
    · intro hmore
      exact ⟨hlisted.symm, (hgoes hmore).2⟩
  | @slot m m' t g _ _ _ _ hlisted hcomposite _ _ ht hcomes _ ih =>
    obtain ⟨index, segments, hpath, hrepeated, hstops, hgoes⟩ := ih
    have hg : g ∈ t.fields := hcomes.mem
    refine ⟨none, ⟨g.id, index⟩ :: segments, ?_, by simp, by simp, ?_⟩
    · rw [hpath]
      rfl
    · intro _
      refine ⟨hlisted.symm, hcomposite, t, ht, ?_⟩
      by_cases hmore : segments = []
      · subst hmore
        rw [hstops rfl]
        exact .last hg hrepeated
      · obtain ⟨hindex, hinside, u, hu, hresolves⟩ := hgoes hmore
        exact .through hg hindex hinside hu hresolves

/-- The path of what a reading of a record comes to resolves from the type of the record. -/
theorem Meets.resolves {name : String} {context : Option Context} {levels : Nat} {s : Source}
    {t : RecordType} (ht : c.type? name = some t)
    (h : c.Meets (.ofRecord name context levels s) path m') (hpath : path ≠ []) :
    ∃ segments, path = segments.flatMap Segment.steps ∧ c.Resolves t segments m'.field := by
  obtain ⟨index, segments, hsteps, hrepeated, -, hgoes⟩ := h.resolvesFrom
  obtain rfl : index = none := by
    rw [← Option.not_isSome_iff_eq_none]
    exact fun hsome => absurd (hrepeated hsome) (by simp [Moment.ofRecord])
  have hsteps : path = segments.flatMap Segment.steps := hsteps
  have hmore : segments ≠ [] := by
    rintro rfl
    exact hpath hsteps
  obtain ⟨-, -, u, hu, hresolves⟩ := hgoes hmore
  obtain rfl : t = u := Option.some.inj (ht.symm.trans hu)
  exact ⟨segments, hsteps, hresolves⟩

/-- The parts of a path that resolves are named by identifiers, if all fields are. -/
theorem Resolves.isIdentifier
    (hid : ∀ name t, c.type? name = some t → ∀ f ∈ t.fields, Text.isIdentifier f.id = true)
    {t : RecordType} {segments : List Segment} {g : Field} (h : c.Resolves t segments g)
    (ht : ∃ name, c.type? name = some t) : ∀ seg ∈ segments, Text.isIdentifier seg.id = true := by
  induction h with
  | last hf _ =>
    obtain ⟨name, ht⟩ := ht
    simpa using hid name _ ht _ hf
  | through hf _ _ hu _ ih =>
    obtain ⟨name, ht⟩ := ht
    exact List.forall_mem_cons.mpr ⟨hid name _ ht _ hf, ih ⟨_, hu⟩⟩

end Codec

end Savefile
