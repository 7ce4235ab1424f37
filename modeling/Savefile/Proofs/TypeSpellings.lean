import Mathlib.Logic.Relation
import Savefile.Proofs.CompactGrammar

/-!
# The grammar of type spellings

A type is written as an identifier, or inside markers that say again that the field is a list or that
it is conditional, with white space around each level. The grammar says which text spells which base
inside which markers. Stripping the markers off a text finds just what the grammar says, and of the
markers nothing stays in the field that is read: only the base counts.
-/
namespace Savefile

namespace Text

section Trim

variable {before after cs : List Char}

theorem getLast?_trimChars (c : Char) (h : (trimChars cs).getLast? = some c) :
    isSpace c = false := by
  rw [trimChars, List.getLast?_reverse] at h
  have hnot := List.head?_dropWhile_not isSpace (cs.dropWhile isSpace).reverse
  rw [h] at hnot
  simpa using hnot

/-- White space around a text makes no difference to what trimming leaves of it. -/
theorem trimChars_gaps (hbefore : ∀ c ∈ before, isSpace c) (hafter : ∀ c ∈ after, isSpace c) :
    trimChars (before ++ cs ++ after) = trimChars cs := by
  obtain ⟨front, back, htext, hfront, hback, hhead⟩ := exists_trim cs
  have hsplit : before ++ cs ++ after =
      (before ++ front) ++ trimChars cs ++ (back ++ after) := by
    conv_lhs => rw [htext]
    simp only [List.append_assoc]
  rw [hsplit]
  exact trimChars_append (List.forall_mem_append.mpr ⟨hbefore, hfront⟩)
    (List.forall_mem_append.mpr ⟨hback, hafter⟩) hhead getLast?_trimChars

/-- A text is one that does not end in white space, and white space behind it. -/
theorem exists_trimEnd (cs : List Char) :
    ∃ rest after, cs = rest ++ after ∧ (∀ c ∈ after, isSpace c) ∧
      (∀ c, rest.getLast? = some c → isSpace c = false) ∧ trimChars rest = trimChars cs := by
  have hsplit : cs = (cs.reverse.dropWhile isSpace).reverse ++
      (cs.reverse.takeWhile isSpace).reverse := by
    rw [← List.reverse_append, List.takeWhile_append_dropWhile, List.reverse_reverse]
  have hafter : ∀ c ∈ (cs.reverse.takeWhile isSpace).reverse, isSpace c := by
    intro c hc
    exact List.all_eq_true.mp List.all_takeWhile c (List.mem_reverse.mp hc)
  refine ⟨_, _, hsplit, hafter, ?_, ?_⟩
  · intro c hc
    rw [List.getLast?_reverse] at hc
    have hnot := List.head?_dropWhile_not isSpace cs.reverse
    rw [hc] at hnot
    simpa using hnot
  · have hgap : trimChars ([] ++ (cs.reverse.dropWhile isSpace).reverse ++
        (cs.reverse.takeWhile isSpace).reverse) = _ := trimChars_gaps (List.forall_mem_nil _) hafter
    rw [List.nil_append, ← hsplit] at hgap
    exact hgap.symm

end Trim

/-- The characters of an identifier are letters, digits and underscores. -/
theorem isIdentRest_of_mem {cs : List Char} (h : isIdentifierChars cs = true) :
    ∀ c ∈ cs, isIdentRest c = true := by
  cases cs with
  | nil => exact List.forall_mem_nil _
  | cons c cs =>
    rw [isIdentifierChars, Bool.and_eq_true, List.all_eq_true] at h
    obtain ⟨hstart, hrest⟩ := h
    refine List.forall_mem_cons.mpr ⟨?_, hrest⟩
    unfold isIdentStart at hstart
    unfold isIdentRest Char.isAlphanum
    rw [Bool.or_right_comm, hstart, Bool.true_or]

theorem isSpace_of_isIdentRest {c : Char} (h : isIdentRest c = true) : isSpace c = false := by
  have halpha : c.isAlpha = (decide (65 ≤ c.val ∧ c.val ≤ 90) ||
    (decide (97 ≤ c.val) && decide (c.val ≤ 122))) := rfl
  have hrange : 48 ≤ c.toNat ∧ c.toNat ≤ 122 := by
    simp [isIdentRest, Char.isAlphanum, halpha, Char.isDigit, UInt32.le_iff_toNat_le] at h
    rcases h with h | rfl
    · omega
    · decide
  simp [isSpace]
  omega

end Text

namespace Schema

/-- How a marker is written around a type: what stands before the type and what behind it. -/
inductive Wrapping : Marker → List Char → List Char → Prop
  | brackets : Wrapping .array ['[', ']'] []
  | vec : Wrapping .array "Vec<".toList ['>']
  | question : Wrapping .nullable ['?'] []
  | option : Wrapping .nullable "Option<".toList ['>']

/-- The text spells the base inside the markers, which are given outermost first. -/
inductive Spelling : List Char → List Marker → String → Prop
  | name {before after : List Char} {base : String} :
      (∀ c ∈ before, Text.isSpace c) → (∀ c ∈ after, Text.isSpace c) → Text.isIdentifier base →
      Spelling (before ++ base.toList ++ after) [] base
  | marked {before start inner stop after : List Char} {m : Marker} {markers : List Marker}
      {base : String} :
      (∀ c ∈ before, Text.isSpace c) → (∀ c ∈ after, Text.isSpace c) → Wrapping m start stop →
      Spelling inner markers base →
      Spelling (before ++ (start ++ inner ++ stop) ++ after) (m :: markers) base

/-- The markers that a field may have, by whether it is conditional and whether it is repeated. -/
inductive Backed (conditional repeats : Bool) : List Marker → Prop
  | none : Backed conditional repeats []
  | array : repeats = true → Backed conditional repeats [.array]
  | nullable : conditional = true → Backed conditional repeats [.nullable]
  | arrayOfNullable : repeats = true → conditional = true →
      Backed conditional repeats [.array, .nullable]

section Stripping

variable {start stop inner before after cs rest : List Char} {m : Marker} {markers : List Marker}
variable {base : String}

theorem afterStart?_eq_some_iff : afterStart? start cs = some rest ↔ cs = start ++ rest := by
  unfold afterStart?
  split
  · rename_i hstart
    obtain ⟨tail, rfl⟩ := List.isPrefixOf_iff_prefix.mp hstart
    simp
  · rename_i hstart
    constructor
    · intro h
      cases h
    · rintro rfl
      exact absurd (List.isPrefixOf_iff_prefix.mpr ⟨rest, rfl⟩) hstart

theorem between?_eq_some_iff : between? start cs = some rest ↔ cs = start ++ rest ++ ['>'] := by
  unfold between?
  rw [Option.bind_eq_some_iff]
  constructor
  · rintro ⟨tail, htail, h⟩
    rw [afterStart?_eq_some_iff] at htail
    split at h
    · rename_i hlast
      cases h
      rw [htail, List.append_assoc, List.dropLast_append_getLast? _ (by simpa using hlast)]
    · cases h
  · intro h
    exact ⟨rest ++ ['>'], by rw [afterStart?_eq_some_iff, h, List.append_assoc], by simp⟩

/-- Around what is found inside the outermost marker, the marker is written. -/
theorem exists_wrapping (h : outerMarker? cs = some (m, rest)) :
    ∃ start stop, Wrapping m start stop ∧ cs = start ++ rest ++ stop := by
  unfold outerMarker? at h
  split at h
  · rename_i hrest
    cases h
    exact ⟨_, _, .brackets, by rw [List.append_nil]; exact afterStart?_eq_some_iff.mp hrest⟩
  · split at h
    · rename_i hrest
      cases h
      exact ⟨_, _, .question, by rw [List.append_nil]; exact afterStart?_eq_some_iff.mp hrest⟩
    · split at h
      · rename_i hrest
        cases h
        exact ⟨_, _, .vec, between?_eq_some_iff.mp hrest⟩
      · obtain ⟨inner, hinner, hm⟩ := Option.map_eq_some_iff.mp h
        cases hm
        exact ⟨_, _, .option, between?_eq_some_iff.mp hinner⟩

/-- A marker that is written around a text is found there. -/
theorem outerMarker?_wrapped (h : Wrapping m start stop) (inner : List Char) :
    outerMarker? (start ++ inner ++ stop) = some (m, inner) := by
  cases h with
  | brackets => simp [outerMarker?, afterStart?]
  | question => simp [outerMarker?, afterStart?]
  | vec => simp [outerMarker?, afterStart?, between?]
  | option => simp [outerMarker?, afterStart?, between?]

/-- There is no marker around an identifier. -/
theorem outerMarker?_identifier (h : Text.isIdentifierChars cs = true) :
    outerMarker? cs = none := by
  have hchars := Text.isIdentRest_of_mem h
  cases hm : outerMarker? cs with
  | none => rfl
  | some found =>
    -- each marker begins with a character that no identifier has, or has one after a word
    obtain ⟨m, rest⟩ := found
    obtain ⟨start, stop, hwrapping, rfl⟩ := exists_wrapping hm
    have hstart : ∃ c ∈ start, Text.isIdentRest c = false := by
      cases hwrapping with
      | brackets => exact ⟨'[', by decide, by decide⟩
      | question => exact ⟨'?', by decide, by decide⟩
      | vec => exact ⟨'<', by decide, by decide⟩
      | option => exact ⟨'<', by decide, by decide⟩
    obtain ⟨c, hc, hnot⟩ := hstart
    have hrest := hchars c (by simp [hc])
    rw [hnot] at hrest
    cases hrest

theorem stripMarkers_of_none (h : outerMarker? (Text.trimChars cs) = none) :
    stripMarkers cs = ([], Text.trimChars cs) := by
  rw [stripMarkers]
  split
  · rfl
  · rename_i hsome
    rw [h] at hsome
    cases hsome

theorem stripMarkers_of_some (h : outerMarker? (Text.trimChars cs) = some (m, rest)) :
    stripMarkers cs = (m :: (stripMarkers rest).1, (stripMarkers rest).2) := by
  rw [stripMarkers]
  split
  · rename_i hnone
    rw [h] at hnone
    cases hnone
  · rename_i hsome
    rw [h] at hsome
    cases hsome
    rfl

/-- What stripping finds depends on the trimmed text alone. -/
theorem stripMarkers_congr {ds : List Char} (h : Text.trimChars cs = Text.trimChars ds) :
    stripMarkers cs = stripMarkers ds := by
  cases hm : outerMarker? (Text.trimChars cs) with
  | none => rw [stripMarkers_of_none hm, stripMarkers_of_none (h ▸ hm), h]
  | some found =>
    have hm' : outerMarker? (Text.trimChars ds) = some found := h ▸ hm
    rw [stripMarkers_of_some hm, stripMarkers_of_some hm']

/-- Trimming a text with a marker around it leaves the marker, and around what stands inside only
white space is lost. -/
theorem exists_trim_wrapped (h : Wrapping m start stop) (hbefore : ∀ c ∈ before, Text.isSpace c)
    (hafter : ∀ c ∈ after, Text.isSpace c) (inner : List Char) :
    ∃ rest, Text.trimChars (before ++ (start ++ inner ++ stop) ++ after) = start ++ rest ++ stop ∧
      Text.trimChars rest = Text.trimChars inner := by
  have hhead : ∀ cs c, (start ++ cs).head? = some c → Text.isSpace c = false := by
    intro cs c hc
    cases h <;> cases hc <;> decide
  by_cases hstop : stop = []
  · -- nothing closes the marker, so white space at the end of the type is at the end of the text
    subst hstop
    obtain ⟨rest, gap, rfl, hgap, hlast, htrim⟩ := Text.exists_trimEnd inner
    refine ⟨rest, ?_, htrim⟩
    have hsplit : before ++ (start ++ (rest ++ gap) ++ []) ++ after =
        before ++ (start ++ rest) ++ (gap ++ after) := by simp
    rw [hsplit, List.append_nil]
    refine Text.trimChars_append hbefore (List.forall_mem_append.mpr ⟨hgap, hafter⟩) (hhead rest) ?_
    intro c hc
    rw [List.getLast?_append] at hc
    cases hrest : rest.getLast? with
    | none =>
      rw [hrest, Option.none_or] at hc
      cases h <;> cases hc <;> decide
    | some d =>
      rw [hrest, Option.some_or] at hc
      cases hc
      exact hlast c hrest
  · refine ⟨inner, ?_, rfl⟩
    apply Text.trimChars_append hbefore hafter
    · rw [List.append_assoc]
      exact hhead _
    · intro c hc
      have hclose : stop = ['>'] := by cases h <;> simp at hstop ⊢
      rw [hclose, List.getLast?_append] at hc
      cases hc
      decide

theorem Spelling.isIdentifier (h : Spelling cs markers base) : Text.isIdentifier base = true := by
  induction h with
  | name _ _ hbase => exact hbase
  | marked _ _ _ _ ih => exact ih

theorem Spelling.ne_nil (h : Spelling cs markers base) : cs ≠ [] := by
  cases h with
  | name _ _ hbase =>
    have hne : base.toList ≠ [] := by
      intro hnil
      rw [Text.isIdentifier, hnil] at hbase
      cases hbase
    simp [hne]
  | marked _ _ hwrapping _ => cases hwrapping <;> simp

theorem Spelling.isEmpty_eq {text : String} (h : Spelling text.toList markers base) :
    text.isEmpty = false := by
  rw [String.isEmpty_eq_false_iff]
  rintro rfl
  exact h.ne_nil rfl

/-- Stripping finds the markers and the base that a text spells. -/
theorem Spelling.strip (h : Spelling cs markers base) :
    stripMarkers cs = (markers, base.toList) := by
  induction h with
  | @name before after base hbefore hafter hbase =>
    have hspace : ∀ c ∈ base.toList, Text.isSpace c = false := fun c hc =>
      Text.isSpace_of_isIdentRest (Text.isIdentRest_of_mem hbase c hc)
    have htrim : Text.trimChars (before ++ base.toList ++ after) = base.toList :=
      Text.trimChars_append hbefore hafter (fun c hc => hspace c (List.mem_of_mem_head? hc))
        fun c hc => hspace c (List.mem_of_mem_getLast? hc)
    have hnone : outerMarker? (Text.trimChars (before ++ base.toList ++ after)) = none := by
      rw [htrim]
      exact outerMarker?_identifier hbase
    rw [stripMarkers_of_none hnone, htrim]
  | @marked before start inner stop after m markers base hbefore hafter hwrapping _ ih =>
    obtain ⟨rest, htrim, hrest⟩ := exists_trim_wrapped hwrapping hbefore hafter inner
    have hmarker := outerMarker?_wrapped hwrapping rest
    rw [← htrim] at hmarker
    rw [stripMarkers_of_some hmarker, stripMarkers_congr hrest, ih]

/-- A text is spelled in one way only. -/
theorem Spelling.unique {markers' : List Marker} {base' : String} (h : Spelling cs markers base)
    (h' : Spelling cs markers' base') : markers = markers' ∧ base = base' := by
  have hstrip := h.strip.symm.trans h'.strip
  rw [Prod.mk.injEq, String.toList_inj] at hstrip
  exact hstrip

/-- What stripping finds is spelled by the text, if it is an identifier in the end. -/
theorem spelling_stripMarkers (cs : List Char)
    (h : Text.isIdentifierChars (stripMarkers cs).2 = true) :
    Spelling cs (stripMarkers cs).1 (String.ofList (stripMarkers cs).2) := by
  induction hlength : cs.length using Nat.strongRecOn generalizing cs with
  | ind length ih =>
    obtain ⟨before, after, htext, hbefore, hafter, -⟩ := Text.exists_trim cs
    cases hm : outerMarker? (Text.trimChars cs) with
    | none =>
      rw [stripMarkers_of_none hm] at h ⊢
      have hbase : Text.isIdentifier (String.ofList (Text.trimChars cs)) := by
        rwa [Text.isIdentifier, String.toList_ofList]
      have hname := Spelling.name hbefore hafter hbase
      rwa [String.toList_ofList, ← htext] at hname
    | some found =>
      obtain ⟨m, rest⟩ := found
      obtain ⟨start, stop, hwrapping, htrim⟩ := exists_wrapping hm
      have hshorter : rest.length < length :=
        hlength ▸ Nat.lt_of_lt_of_le (length_outerMarker?_lt hm) (length_trimChars_le cs)
      rw [stripMarkers_of_some hm] at h ⊢
      have hmarked := Spelling.marked hbefore hafter hwrapping (ih rest.length hshorter rest h rfl)
      rwa [← htrim, ← htext] at hmarked

/-- A text spells a base inside markers just if stripping finds them. -/
theorem spelling_iff :
    Spelling cs markers base ↔ stripMarkers cs = (markers, base.toList) ∧ Text.isIdentifier base := by
  constructor
  · intro h
    exact ⟨h.strip, h.isIdentifier⟩
  · rintro ⟨hstrip, hbase⟩
    have h := spelling_stripMarkers cs (by rwa [hstrip])
    rwa [hstrip, String.ofList_toList] at h

end Stripping

section Fields

variable {conditional repeats : Bool} {markers : List Marker} {base text path : String}
variable {node : Yaml.Node} {f : Field}

theorem markersFault?_array_eq_none_iff {last : Option Marker} :
    markersFault? conditional repeats last (.array :: markers) = none ↔
      repeats = true ∧ last = none ∧
        markersFault? conditional repeats (some .array) markers = none := by
  cases repeats <;> cases last <;> simp [markersFault?]

theorem markersFault?_nullable_eq_none_iff {last : Option Marker} :
    markersFault? conditional repeats last (.nullable :: markers) = none ↔
      conditional = true ∧ last ≠ some .nullable ∧
        markersFault? conditional repeats (some .nullable) markers = none := by
  by_cases hlast : last = some .nullable <;> cases conditional <;> simp [markersFault?, hlast]

theorem markersFault?_after_nullable
    (h : markersFault? conditional repeats (some .nullable) markers = none) : markers = [] := by
  cases markers with
  | nil => rfl
  | cons m rest =>
    cases m with
    | array =>
      obtain ⟨-, hlast, -⟩ := markersFault?_array_eq_none_iff.mp h
      cases hlast
    | nullable => exact absurd rfl (markersFault?_nullable_eq_none_iff.mp h).2.1

theorem markersFault?_after_array
    (h : markersFault? conditional repeats (some .array) markers = none) :
    markers = [] ∨ conditional = true ∧ markers = [.nullable] := by
  cases markers with
  | nil => exact .inl rfl
  | cons m rest =>
    cases m with
    | array =>
      obtain ⟨-, hlast, -⟩ := markersFault?_array_eq_none_iff.mp h
      cases hlast
    | nullable =>
      obtain ⟨hconditional, -, hrest⟩ := markersFault?_nullable_eq_none_iff.mp h
      exact .inr ⟨hconditional, by rw [markersFault?_after_nullable hrest]⟩

/-- Nothing is wrong with markers just if the field backs them. -/
theorem markersFault?_eq_none_iff :
    markersFault? conditional repeats none markers = none ↔ Backed conditional repeats markers := by
  constructor
  · intro h
    cases markers with
    | nil => exact .none
    | cons m rest =>
      cases m with
      | array =>
        obtain ⟨hrepeats, -, hrest⟩ := markersFault?_array_eq_none_iff.mp h
        rcases markersFault?_after_array hrest with rfl | ⟨hconditional, rfl⟩
        · exact .array hrepeats
        · exact .arrayOfNullable hrepeats hconditional
      | nullable =>
        obtain ⟨hconditional, -, hrest⟩ := markersFault?_nullable_eq_none_iff.mp h
        rw [markersFault?_after_nullable hrest]
        exact .nullable hconditional
  · intro h
    cases h with
    | none => rfl
    | array hrepeats => simp [markersFault?, hrepeats]
    | nullable hconditional => simp [markersFault?, hconditional]
    | arrayOfNullable hrepeats hconditional => simp [markersFault?, hrepeats, hconditional]

theorem Backed.length_le (h : Backed conditional repeats markers) :
    markers.length ≤ markerLimit := by
  cases h <;> decide

theorem splitMarkers_eq_ok_iff :
    splitMarkers text = .ok (markers, base) ↔
      stripMarkers text.toList = (markers, base.toList) ∧ markers.length ≤ markerLimit := by
  rcases hfound : stripMarkers text.toList with ⟨found, name⟩
  simp only [splitMarkers, hfound]
  constructor
  · intro h
    split at h
    · cases h
    · rename_i hlength
      cases h
      exact ⟨by rw [String.toList_ofList], Nat.le_of_not_lt hlength⟩
  · rintro ⟨hstrip, hlength⟩
    cases hstrip
    rw [if_neg (Nat.not_lt.mpr hlength), String.ofList_toList]

/-- A descriptor that is right apart from its type: the identifier, the condition and the repetition
that are read from it. -/
structure Descriptor [Language] (path : String) (node : Yaml.Node) (id : String)
    (condition : Option Condition) (repetition : Option Repetition) : Prop where
  name : requiredText path node "id" = .ok id
  isIdentifier : Text.isIdentifier id = true
  ne_root : id ≠ rootVariable
  condition : readFieldCondition path node = .ok condition
  repetition : readFieldRepetition path node = .ok repetition

theorem isSome_of_readFieldCondition [Language] {condition : Option Condition}
    (h : readFieldCondition path node = .ok condition) :
    condition.isSome = (node.get? "if").isSome := by
  unfold readFieldCondition at h
  cases hif : node.get? "if" with
  | none =>
    simp only [hif] at h
    cases h
    rfl
  | some n =>
    simp only [hif] at h
    obtain ⟨e, -, h⟩ := exists_of_bind_ok h
    split at h
    · cases h
      rfl
    · split at h <;> cases h
      rfl

theorem isSome_of_readFieldRepetition [Language] {repetition : Option Repetition}
    (h : readFieldRepetition path node = .ok repetition) :
    repetition.isSome = (node.get? "repeat").isSome := by
  unfold readFieldRepetition at h
  cases hrepeat : node.get? "repeat" with
  | none =>
    simp only [hrepeat] at h
    cases h
    rfl
  | some n =>
    simp only [hrepeat] at h
    obtain ⟨r, -, rfl⟩ := exists_of_map_ok h
    rfl

theorem requiredText_eq_ok_iff {key : String} :
    requiredText path node key = .ok text ↔
      (∃ tag, node.get? key = some (.scalar tag text)) ∧ text.isEmpty = false := by
  unfold requiredText
  constructor
  · intro h
    split at h
    · cases h
    · rename_i tag value hvalue
      split at h
      · cases h
      · rename_i hempty
        cases h
        exact ⟨⟨tag, hvalue⟩, by simpa using hempty⟩
    · cases h
  · rintro ⟨⟨tag, hvalue⟩, hempty⟩
    simp [hvalue, hempty]

theorem eq_mapping_of_get? {key : String} {n : Yaml.Node} (h : node.get? key = some n) :
    ∃ entries, node = .mapping entries := by
  cases node with
  | mapping entries => exact ⟨entries, rfl⟩
  | _ => cases h

/-- A field is read just if the descriptor is right apart from the type, and the type is spelled
inside markers that the rest of the descriptor backs. -/
theorem readField_eq_ok_iff [Language] :
    readField path node = .ok f ↔
      ∃ id condition repetition tag text markers base,
        Descriptor path node id condition repetition ∧
        node.get? "type" = some (.scalar tag text) ∧ Spelling text.toList markers base ∧
        Backed (node.get? "if").isSome (node.get? "repeat").isSome markers ∧
        f = ⟨id, .ofName base, condition, repetition⟩ := by
  constructor
  · intro h
    unfold readField at h
    split at h
    · obtain ⟨id, hid, h⟩ := exists_of_bind_ok h
      split at h
      · cases h
      · rename_i hname
        simp only [Bool.or_eq_true, Bool.not_eq_eq_eq_not, Bool.not_true, beq_iff_eq, not_or,
          Bool.not_eq_false] at hname
        obtain ⟨text, htext, h⟩ := exists_of_bind_ok h
        split at h
        · cases h
        · rename_i markers base hsplit
          split at h
          · cases h
          · rename_i hbase
            obtain ⟨condition, hcondition, h⟩ := exists_of_bind_ok h
            obtain ⟨repetition, hrepetition, h⟩ := exists_of_bind_ok h
            split at h
            · cases h
            · rename_i hmarkers
              cases h
              rw [markersFault?_eq_none_iff, isSome_of_readFieldCondition hcondition,
                isSome_of_readFieldRepetition hrepetition] at hmarkers
              obtain ⟨⟨tag, hget⟩, -⟩ := requiredText_eq_ok_iff.mp htext
              exact ⟨id, condition, repetition, tag, text, markers, base,
                ⟨hid, hname.1, hname.2, hcondition, hrepetition⟩, hget,
                spelling_iff.mpr ⟨(splitMarkers_eq_ok_iff.mp hsplit).1, by simpa using hbase⟩,
                hmarkers, rfl⟩
    · cases h
  · rintro ⟨id, condition, repetition, tag, text, markers, base, hd, hget, hspelling, hbacked, rfl⟩
    obtain ⟨entries, rfl⟩ := eq_mapping_of_get? hget
    have htext : requiredText path (.mapping entries) "type" = .ok text :=
      requiredText_eq_ok_iff.mpr ⟨⟨tag, hget⟩, hspelling.isEmpty_eq⟩
    have hsplit := splitMarkers_eq_ok_iff.mpr ⟨hspelling.strip, hbacked.length_le⟩
    rw [← isSome_of_readFieldCondition hd.condition, ← isSome_of_readFieldRepetition hd.repetition]
      at hbacked
    simp only [readField, hd.name, ok_bind, hd.isIdentifier, Bool.not_true, Bool.false_or,
      beq_iff_eq, hd.ne_root, if_false, htext, hsplit, hspelling.isIdentifier, Bool.false_eq_true,
      hd.condition, hd.repetition, markersFault?_eq_none_iff.mpr hbacked]

/-- The field that is read has the base that its type spells. -/
theorem readField_spelled [Language] {tag : String} (h : readField path node = .ok f)
    (htext : node.get? "type" = some (.scalar tag text))
    (hspelling : Spelling text.toList markers base) :
    ∃ id condition repetition, Descriptor path node id condition repetition ∧
      f = ⟨id, .ofName base, condition, repetition⟩ := by
  obtain ⟨id, condition, repetition, tag', text', markers', base', hd, htext', hspelling', -, rfl⟩ :=
    readField_eq_ok_iff.mp h
  rw [htext] at htext'
  cases htext'
  rw [(hspelling.unique hspelling').2]
  exact ⟨id, condition, repetition, hd, rfl⟩

/-- If the rest of a descriptor is right, then what is refused is its type. -/
theorem readField_error_path [Language] {id tag : String} {condition : Option Condition}
    {repetition : Option Repetition} {e : SchemaError}
    (hd : Descriptor path node id condition repetition)
    (htext : node.get? "type" = some (.scalar tag text)) (h : readField path node = .error e) :
    e.path = path ++ ".type" := by
  obtain ⟨entries, rfl⟩ := eq_mapping_of_get? htext
  simp only [readField, hd.name, ok_bind, hd.isIdentifier, Bool.not_true, Bool.false_or,
    beq_iff_eq, hd.ne_root, if_false] at h
  cases hrequired : requiredText path (.mapping entries) "type" with
  | error e' =>
    rw [hrequired] at h
    cases h
    unfold requiredText at hrequired
    simp only [htext] at hrequired
    split at hrequired
    · cases hrequired
      exact String.append_assoc
    · cases hrequired
  | ok text' =>
    simp only [hrequired, ok_bind, hd.condition, hd.repetition] at h
    split at h
    · cases h
      rfl
    · split at h
      · cases h
        rfl
      · split at h
        · cases h
          rfl
        · cases h

theorem readCondition_ok [Language] {path' : String} {e : Expr}
    (h : readCondition path node = .ok e) : readCondition path' node = .ok e := by
  cases node with
  | scalar tag source =>
    simp only [readCondition] at h ⊢
    split at h
    · cases h
    · rename_i hblank
      rw [if_neg hblank]
      split at h
      · exact h
      · cases h
  | _ => cases h

theorem readRepetition_ok [Language] {path' : String} {r : Repetition}
    (h : readRepetition path node = .ok r) : readRepetition path' node = .ok r := by
  cases node with
  | scalar tag text =>
    simp only [readRepetition] at h ⊢
    split at h
    · cases h
    · rename_i kind source hwords
      split at h
      · cases h
      · rename_i hkind
        rw [if_neg hkind]
        split at h
        · cases h
        · rename_i hblank
          rw [if_neg hblank]
          split at h
          · exact h
          · cases h
  | _ => cases h

/-- What the rest of a descriptor gives depends on its entries apart from the type, and not on the
place of the descriptor. -/
theorem Descriptor.congr [Language] {path' id : String} {node' : Yaml.Node}
    {condition : Option Condition} {repetition : Option Repetition}
    (h : Descriptor path node id condition repetition)
    (hkeys : ∀ key ≠ "type", node.get? key = node'.get? key) :
    Descriptor path' node' id condition repetition := by
  refine ⟨?_, h.isIdentifier, h.ne_root, ?_, ?_⟩
  · have hname := requiredText_eq_ok_iff.mp h.name
    rw [hkeys "id" (by decide)] at hname
    exact requiredText_eq_ok_iff.mpr hname
  · have hcondition := h.condition
    unfold readFieldCondition at hcondition ⊢
    rw [← hkeys "if" (by decide), ← hkeys "advance_if_false" (by decide)]
    split at hcondition
    · exact hcondition
    · obtain ⟨e, he, hcondition⟩ := exists_of_bind_ok hcondition
      rw [readCondition_ok he, ok_bind]
      split at hcondition
      · exact hcondition
      · split at hcondition
        · exact hcondition
        · cases hcondition
  · have hrepetition := h.repetition
    unfold readFieldRepetition at hrepetition ⊢
    rw [← hkeys "repeat" (by decide)]
    split at hrepetition
    · exact hrepetition
    · obtain ⟨r, hr, rfl⟩ := exists_of_map_ok hrepetition
      rw [readRepetition_ok hr]
      rfl

end Fields

/-- A round of stripping takes a marker off a text. -/
def Strips (cs rest : List Char) : Prop := ∃ m, outerMarker? (Text.trimChars cs) = some (m, rest)

theorem Strips.length_lt {cs rest : List Char} (h : Strips cs rest) : rest.length < cs.length := by
  obtain ⟨m, hm⟩ := h
  exact Nat.lt_of_lt_of_le (length_outerMarker?_lt hm) (length_trimChars_le cs)

theorem wellFounded_strips : WellFounded fun rest cs => Strips cs rest :=
  Subrelation.wf Strips.length_lt (measure List.length).wf

/-- Round by round a text comes to one without a marker around it, which is what stripping gives. -/
theorem exists_stripped (cs : List Char) :
    ∃ last, Relation.ReflTransGen Strips cs last ∧ (∀ rest, ¬Strips last rest) ∧
      (stripMarkers cs).2 = Text.trimChars last := by
  induction cs using wellFounded_strips.induction with
  | _ cs ih =>
    cases hm : outerMarker? (Text.trimChars cs) with
    | none =>
      refine ⟨cs, .refl, ?_, by rw [stripMarkers_of_none hm]⟩
      rintro rest ⟨m, hsome⟩
      rw [hm] at hsome
      cases hsome
    | some found =>
      obtain ⟨m, rest⟩ := found
      obtain ⟨last, hrounds, hlast, hbase⟩ := ih rest ⟨m, hm⟩
      exact ⟨last, .head ⟨m, hm⟩ hrounds, hlast, by rw [stripMarkers_of_some hm, hbase]⟩

/-- What a field's value looks like depends on its type and on whether it is conditional and
repeated. -/
theorem shape_congr {f g : Field} (htype : f.type = g.type)
    (hcondition : f.condition.isSome = g.condition.isSome)
    (hrepetition : f.repetition.isSome = g.repetition.isSome) : f.shape = g.shape := by
  simp only [Field.shape, Field.elementShape, htype, hcondition, hrepetition]

/-- The type of a field is accepted just if the grammar derives it, with markers that the descriptor
backs: none, a list marker, a conditional one, or the first around the second, a list marker only with
`repeat` and a conditional one only with `if`. Otherwise the type is refused, wherever the rest of the
descriptor is right. A text is derived in one way at most, and two accepted spellings of one base give
the same type and the same shape, and so the same field in the same descriptor. From no text can
markers be stripped for ever. -/
theorem readField_follows_spelling [Language] (path : String) (node : Yaml.Node) :
    (∀ f, readField path node = .ok f ↔
      ∃ id condition repetition tag text markers base,
        Descriptor path node id condition repetition ∧
        node.get? "type" = some (.scalar tag text) ∧ Spelling text.toList markers base ∧
        Backed (node.get? "if").isSome (node.get? "repeat").isSome markers ∧
        f = ⟨id, .ofName base, condition, repetition⟩) ∧
    (∀ id condition repetition tag text, Descriptor path node id condition repetition →
      node.get? "type" = some (.scalar tag text) →
      (¬∃ markers base, Spelling text.toList markers base ∧
        Backed (node.get? "if").isSome (node.get? "repeat").isSome markers) →
      ∃ problem, readField path node = .error ⟨path ++ ".type", problem⟩) ∧
    (∀ text markers base markers' base', Spelling text markers base →
      Spelling text markers' base' → markers = markers' ∧ base = base') ∧
    (∀ path' node' f f' tag text markers tag' text' markers' base, readField path node = .ok f →
      readField path' node' = .ok f' → node.get? "type" = some (.scalar tag text) →
      node'.get? "type" = some (.scalar tag' text') → Spelling text.toList markers base →
      Spelling text'.toList markers' base →
      f.type = f'.type ∧
        ((node.get? "if").isSome = (node'.get? "if").isSome →
          (node.get? "repeat").isSome = (node'.get? "repeat").isSome → f.shape = f'.shape) ∧
        ((∀ key ≠ "type", node.get? key = node'.get? key) → f = f')) ∧
    (WellFounded fun rest text => Strips text rest) ∧
    ∀ text, ∃ last, Relation.ReflTransGen Strips text last ∧ (∀ rest, ¬Strips last rest) ∧
      (stripMarkers text).2 = Text.trimChars last := by
  refine ⟨fun f => readField_eq_ok_iff, ?_, fun _ _ _ _ _ h h' => h.unique h', ?_,
    wellFounded_strips, exists_stripped⟩
  · intro id condition repetition tag text hd htext hnone
    cases hread : readField path node with
    | error e =>
      obtain ⟨place, problem⟩ := e
      have hplace : place = path ++ ".type" := readField_error_path hd htext hread
      exact ⟨problem, by rw [hplace]⟩
    | ok f =>
      obtain ⟨_, _, _, tag', text', markers, base, _, htext', hspelling, hbacked, _⟩ :=
        readField_eq_ok_iff.mp hread
      rw [htext] at htext'
      cases htext'
      exact absurd ⟨markers, base, hspelling, hbacked⟩ hnone
  · intro path' node' f f' tag text markers tag' text' markers' base h h' htext htext' hs hs'
    obtain ⟨id, condition, repetition, hd, rfl⟩ := readField_spelled h htext hs
    obtain ⟨id', condition', repetition', hd', rfl⟩ := readField_spelled h' htext' hs'
    refine ⟨rfl, ?_, ?_⟩
    · intro hif hrepeat
      rw [← isSome_of_readFieldCondition hd.condition,
        ← isSome_of_readFieldCondition hd'.condition] at hif
      rw [← isSome_of_readFieldRepetition hd.repetition,
        ← isSome_of_readFieldRepetition hd'.repetition] at hrepeat
      exact shape_congr rfl hif hrepeat
    · intro hkeys
      -- the two descriptors are read alike, whatever their types
      have hsame : Descriptor path' node' id condition repetition := hd.congr hkeys
      have hid := hsame.name.symm.trans hd'.name
      have hcondition := hsame.condition.symm.trans hd'.condition
      have hrepetition := hsame.repetition.symm.trans hd'.repetition
      cases hid
      cases hcondition
      cases hrepetition
      rfl

/-- White space of several kinds around each level makes no difference, nor do the markers; in the
wrong order they are refused. -/
theorem readField_follows_spelling_list :
    ∃ node : String → Yaml.Node, ∃ f problem,
      readField "items[0]" (node "\t Vec< ?\u00a0Foo > ") = .ok f ∧
      readField "items[0]" (node "Foo") = .ok f ∧ f.shape = .repeated (.conditional .composite) ∧
      (¬∃ markers base, Spelling "?[]Foo".toList markers base ∧ Backed true true markers) ∧
      readField "items[0]" (node "?[]Foo") = .error ⟨"items[0].type", problem⟩ := by
  let node : String → Yaml.Node := fun text =>
    .mapping [(.scalar "!!str" "id", .scalar "!!str" "xs"), (.scalar "!!str" "if",
      .scalar "!!str" "n > 0"), (.scalar "!!str" "repeat", .scalar "!!str" "Count(n)"),
      (.scalar "!!str" "type", .scalar "!!str" text)]
  have hget : ∀ text, (node text).get? "type" = some (.scalar "!!str" text) := fun _ => rfl
  have hmarked : Spelling "\t Vec< ?\u00a0Foo > ".toList [.array, .nullable] "Foo" :=
    spelling_iff.mpr ⟨by decide +kernel, by decide⟩
  have hplain : Spelling "Foo".toList [] "Foo" := spelling_iff.mpr ⟨by decide +kernel, by decide⟩
  have hwrong : Spelling "?[]Foo".toList [.nullable, .array] "Foo" :=
    spelling_iff.mpr ⟨by decide +kernel, by decide⟩
  have hkeys : ∀ text text', ∀ key ≠ "type", (node text).get? key = (node text').get? key := by
    intro text text' key hkey
    simp [node, Yaml.Node.get?, Yaml.Node.keyText, List.find?_cons, hkey.symm]
  have hshape : (readField "items[0]" (node "\t Vec< ?\u00a0Foo > ")).toOption.map Field.shape =
      some (.repeated (.conditional .composite)) := by decide +kernel
  have haccepted : (readField "items[0]" (node "Foo")).toOption.isSome = true := by decide +kernel
  obtain ⟨f, hf, hshape⟩ := Option.map_eq_some_iff.mp hshape
  obtain ⟨f', hf'⟩ := Option.isSome_iff_exists.mp haccepted
  replace hf := Codec.eq_ok_of_toOption hf
  replace hf' := Codec.eq_ok_of_toOption hf'
  have hsame : f = f' := ((readField_follows_spelling "items[0]" _).2.2.2.1 _ _ _ _ _ _ _ _ _ _ _
    hf hf' (hget _) (hget _) hmarked hplain).2.2 (hkeys _ _)
  have hnone : ¬∃ markers base, Spelling "?[]Foo".toList markers base ∧ Backed true true markers := by
    rintro ⟨markers, base, hspelling, hbacked⟩
    obtain ⟨rfl, -⟩ := hwrong.unique hspelling
    cases hbacked
  obtain ⟨id, condition, repetition, _, _, _, _, hd, -⟩ :=
    ((readField_follows_spelling "items[0]" _).1 f').mp hf'
  obtain ⟨problem, hproblem⟩ := (readField_follows_spelling "items[0]" (node "?[]Foo")).2.1 id
    condition repetition _ _ (hd.congr (hkeys _ _)) (hget _) hnone
  exact ⟨node, f, problem, hf, hsame ▸ hf', hshape, hnone, hproblem⟩

end Schema

end Savefile
