import Savefile.Proofs.Access
import Savefile.Proofs.Course
import Savefile.Proofs.RootContexts
import Savefile.Proofs.TypeSpellings

/-!
# What expressions see

The expressions of a field see the values of the fields before it in its own record and, under one
name, the leading fields of the root. At every moment of a reading, and at every spot of a record that
is written, the frame shows just this: the values that were read before, or that stand before it in the
record. What goes wrong at a moment makes the whole reading fail, at the path of the moment; and a
record that is written as a whole is written at each spot inside.
-/
namespace Savefile

/-- What the expressions of a field see: of its own record the values of the fields before it, and the
leading fields of the root. -/
structure View where
  type : RecordType
  earlier : List Value
  context : Option Context

namespace View

/-- The identifiers of the fields of the record. -/
def ids (view : View) : List String := view.type.fields.map (·.id)

/-- In the view, a name and the steps after it lead to the value. -/
inductive Sees (view : View) : String → List PathStep → Value → Prop
  | own {x : String} {path : List PathStep} {v w : Value} :
      Value.fieldOf? view.ids view.earlier x = some v → v.at? path = some w → Sees view x path w
  | root {ctx : Context} {id : String} {path : List PathStep} {v w : Value} :
      view.context = some ctx → Value.fieldOf? ctx.ids ctx.values id = some v →
      v.at? path = some w → Sees view Schema.rootVariable (.field id :: path) w

end View

namespace Value

/-- A value that comes last hides those under the same identifier. -/
theorem fieldOf?_append {ids : List String} {values : List Value} {id : String}
    (h : ids[values.length]? = some id) (v : Value) (x : String) :
    fieldOf? ids (values ++ [v]) x = if x = id then some v else fieldOf? ids values x := by
  obtain ⟨before, after, rfl, hlength⟩ : ∃ before after, ids = before ++ id :: after ∧
      before.length = values.length := by
    obtain ⟨hlt, rfl⟩ := List.getElem?_eq_some_iff.mp h
    refine ⟨ids.take values.length, ids.drop (values.length + 1), ?_, ?_⟩
    · rw [List.cons_getElem_drop_succ, List.take_append_drop]
    · rw [List.length_take, Nat.min_eq_left (Nat.le_of_lt hlt)]
  have hlast : (before ++ id :: after).zip (values ++ [v]) = before.zip values ++ [(id, v)] := by
    rw [List.zip_append hlength, List.zip_cons_cons, List.zip_nil_right]
  have hbefore : (before ++ id :: after).zip values = before.zip values := by
    have hall : (before ++ id :: after).zip (values ++ []) =
        before.zip values ++ (id :: after).zip [] := List.zip_append hlength
    rwa [List.append_nil, List.zip_nil_right, List.append_nil] at hall
  rw [fieldOf?, fieldOf?, hlast, hbefore, List.reverse_append]
  exact lookup_cons_ite x (id, v) _

theorem mem_of_fieldOf? {ids : List String} {values : List Value} {id : String} {v : Value}
    (h : fieldOf? ids values id = some v) : id ∈ ids :=
  (List.of_mem_zip (List.mem_reverse.mp (Codec.mem_of_lookup h))).1

end Value

namespace Frame

/-- The frame shows the view and nothing else. -/
structure Shows (fr : Frame) (view : View) : Prop where
  context : fr.context = view.context
  fields : ∀ x, x ≠ Schema.rootVariable →
    fr.scope.lookup x = (Value.fieldOf? view.ids view.earlier x).map Value.toDatum
  root : fr.scope.lookup Schema.rootVariable = view.context.map Context.toDatum
  names : ∀ entry ∈ fr.scope, entry.1 = Schema.rootVariable ∨ entry.1 ∈ view.ids

variable {fr : Frame} {view : View}

theorem shows_start (t : RecordType) (context : Option Context) :
    (start context).Shows ⟨t, [], context⟩ where
  context := rfl
  fields := by
    intro x hx
    cases context <;> simp [start, Value.fieldOf?, lookup_cons_ite, hx]
  root := by
    cases context <;> simp [start]
  names := by
    cases context <;> simp [start]

theorem Shows.share (h : fr.Shows view) (ctx : Context) :
    (fr.share ctx).Shows { view with context := some ctx } where
  context := rfl
  fields := by
    intro x hx
    rw [Frame.share, lookup_cons_ite, if_neg hx]
    exact h.fields x hx
  root := by
    rw [Frame.share, lookup_cons_ite, if_pos rfl]
    rfl
  names := List.forall_mem_cons.mpr ⟨.inl rfl, h.names⟩

theorem Shows.bind {f : Field} (h : fr.Shows view) (hroot : f.id ≠ Schema.rootVariable)
    (hf : view.type.fields[view.earlier.length]? = some f) (v : Value) :
    (fr.bind f.id v).Shows { view with earlier := view.earlier ++ [v] } where
  context := h.context
  fields := by
    intro x hx
    have hid : view.ids[view.earlier.length]? = some f.id := by
      rw [View.ids, List.getElem?_map, hf]
      rfl
    have hfields := Value.fieldOf?_append hid v x
    rw [Frame.bind, lookup_cons_ite, h.fields x hx]
    simp only [View.ids] at hfields ⊢
    rw [hfields]
    split <;> rfl
  root := by
    rw [Frame.bind, lookup_cons_ite, if_neg hroot.symm]
    exact h.root
  names := by
    refine List.forall_mem_cons.mpr ⟨.inr ?_, h.names⟩
    exact List.mem_map_of_mem (List.mem_of_getElem? hf)

/-- What the view leads to, the scope leads to. -/
theorem Shows.exists_lookup (h : fr.Shows view) (hroot : Schema.rootVariable ∉ view.ids) {x : String}
    {path : List PathStep} {v : Value} (hsees : view.Sees x path v) :
    ∃ d, fr.scope.lookup x = some d ∧ d.at? path = some v.toDatum := by
  cases hsees with
  | @own _ _ w _ hfield hpath =>
    have hx : x ≠ Schema.rootVariable := by
      rintro rfl
      exact hroot (Value.mem_of_fieldOf? hfield)
    refine ⟨w.toDatum, ?_, ?_⟩
    · rw [h.fields x hx, hfield]
      rfl
    · rw [Value.at?_toDatum, hpath]
      rfl
  | @root ctx id path w _ hctx hfield hpath =>
    refine ⟨ctx.toDatum, ?_, ?_⟩
    · rw [h.root, hctx]
      rfl
    · have hmember : ctx.toDatum.part? (.field id) = some w.toDatum := by
        have hlookup := Value.lookup_fields ctx.ids ctx.values id
        rw [hfield] at hlookup
        exact hlookup
      rw [Datum.at?_cons, hmember, Option.bind_some, Value.at?_toDatum, hpath]
      rfl

end Frame

namespace Codec

variable {c : Codec}

/-- The context that the field after some values of a record is given: a root shares its leading
fields once they are complete, and every other record hands on the context of its own. -/
def contextBefore (c : Codec) (own : RecordType) (context : Option Context) (earlier : List Value) :
    Option Context :=
  if c.isRoot own.name then
    if c.contextBoundary ≤ earlier.length then some (.ofSlots own earlier c.contextBoundary) else none
  else context

/-- The view of the field after some values of a record. The record may bring a type of its own, which
has the same name and says how the shared fields are called. -/
def viewAfter (c : Codec) (t own : RecordType) (context : Option Context) (earlier : List Value) :
    View :=
  ⟨t, earlier, c.contextBefore own context earlier⟩

/-- The fields of all record types are named as expressions need it. -/
def AllNamed (c : Codec) : Prop := ∀ name t, c.type? name = some t → Schema.Named t.fields

theorem allNamed_of_compile {s : Schema} {options : CodecOptions} (hs : s.Accepted)
    (hc : compile (some s) options = .ok c) : c.AllNamed := by
  obtain rfl := compile_ok hc
  intro name t ht
  exact hs.wellFormed.fields t (mem_of_type? ht)

section Frames

theorem getElem?_of_drop {fields fs : List Field} {f : Field} {i : Nat}
    (h : fields.drop i = f :: fs) : fields[i]? = some f := by
  rw [← List.head?_drop, h, List.head?_cons]

variable {t own : RecordType} {context : Option Context} {fr : Frame} {slots : List Value}

/-- Once a frame shows the fields, with the context that it had before the last of them, it shows the
view of the next field as soon as the leading fields are shared. -/
theorem shows_before (hown : own.name = t.name)
    (h : fr.Shows ⟨t, slots.reverse, fr.context⟩)
    (hcontext : slots.length ≠ c.contextBoundary ∨ c.isRoot t.name = false →
      fr.context = c.contextBefore own context slots.reverse) :
    (fr.before (c.sharesAfter? t.name) own slots).Shows
      (c.viewAfter t own context slots.reverse) := by
  unfold Frame.before
  split
  · rename_i hshare
    unfold sharesAfter? at hshare
    split at hshare
    · -- the leading fields of a root are complete
      rename_i hroot
      have hlength : c.contextBoundary = slots.length := Option.some.inj hshare
      have hview : c.viewAfter t own context slots.reverse =
          ⟨t, slots.reverse, some (.ofSlots own slots.reverse slots.length)⟩ := by
        simp [viewAfter, contextBefore, hown, hroot, hlength]
      rw [hview]
      exact h.share _
    · cases hshare
  · rename_i hshare
    have hnot : slots.length ≠ c.contextBoundary ∨ c.isRoot t.name = false := by
      by_cases hroot : c.isRoot t.name = true
      · refine .inl fun hlength => hshare ?_
        rw [sharesAfter?, if_pos hroot, hlength]
      · exact .inr (Bool.eq_false_iff.mpr hroot)
    rw [viewAfter, ← hcontext hnot]
    exact h

theorem shows_first (hown : own.name = t.name) :
    ((Frame.start (if c.isRoot t.name then none else context)).before (c.sharesAfter? t.name) own
      []).Shows (c.viewAfter t own context []) := by
  apply shows_before hown (Frame.shows_start t _)
  intro hnot
  change (if c.isRoot t.name then none else context) = _
  rw [contextBefore, hown]
  cases hroot : c.isRoot t.name with
  | false => rfl
  | true =>
    have hboundary : c.contextBoundary ≠ 0 := by
      rcases hnot with hlength | hother
      · exact hlength.symm
      · rw [hroot] at hother
        cases hother
    simp [hboundary]

/-- Another value changes the context just if it completes the leading fields. -/
theorem contextBefore_append (c : Codec) (own : RecordType) (context : Option Context)
    {earlier : List Value} {v : Value}
    (h : (earlier ++ [v]).length ≠ c.contextBoundary ∨ c.isRoot own.name = false) :
    c.contextBefore own context (earlier ++ [v]) = c.contextBefore own context earlier := by
  unfold contextBefore
  cases hroot : c.isRoot own.name with
  | false => rfl
  | true =>
    have hlength : earlier.length + 1 ≠ c.contextBoundary := by
      rcases h with hlength | hother
      · rwa [List.length_append] at hlength
      · rw [hroot] at hother
        cases hother
    by_cases hle : c.contextBoundary ≤ earlier.length
    · have hle' : c.contextBoundary ≤ (earlier ++ [v]).length := by
        rw [List.length_append]
        omega
      rw [if_pos hle, if_pos hle', Context.ofSlots, Context.ofSlots,
        List.take_append_of_le_length hle]
    · have hle' : ¬c.contextBoundary ≤ (earlier ++ [v]).length := by
        rw [List.length_append, List.length_singleton]
        omega
      rw [if_neg hle, if_neg hle']

theorem shows_next (hown : own.name = t.name) {f : Field} (hroot : f.id ≠ Schema.rootVariable)
    (hf : t.fields[slots.length]? = some f)
    (h : fr.Shows (c.viewAfter t own context slots.reverse)) (v : Value) :
    ((fr.bind f.id v).before (c.sharesAfter? t.name) own (v :: slots)).Shows
      (c.viewAfter t own context (v :: slots).reverse) := by
  have hcontext : (fr.bind f.id v).context = c.contextBefore own context slots.reverse := h.context
  have hfields := h.bind hroot (by simpa [viewAfter] using hf) v
  apply shows_before hown
  · rw [hcontext, List.reverse_cons]
    exact hfields
  · intro hnot
    rw [hcontext, List.reverse_cons, contextBefore_append]
    simpa [hown] using hnot

end Frames

/-! ## Readings -/

section Reading

variable {m m' start : Moment} {path : List PathStep} {t : RecordType} {levels : Nat}

/-- At the moment a record of the type is read. -/
structure Opens (c : Codec) (m : Moment) (t : RecordType) (levels : Nat) : Prop where
  single : m.listed = false
  composite : m.field.type.kind.isComposite = true
  present : m.field.Present m.frame.scope
  levels : m.levels = levels + 1
  type : c.type? m.field.type.name = some t

/-- The reading of the record comes to the field, in the frame and at the source. -/
abbrev ComesIn (c : Codec) (m : Moment) (t : RecordType) (levels : Nat) (g : Field) (fr : Frame)
    (x : Source) : Prop :=
  ComesToField c (c.decodeRecord levels) t t.fields []
    (.start (if c.isRoot t.name then none else m.frame.context)) m.source g fr x

theorem Opens.meets (h : c.Opens m t levels) {g : Field} {fr : Frame} {x : Source}
    (hcomes : c.ComesIn m t levels g fr x) :
    c.Meets m [.field g.id] ⟨g, g.repetition.isSome, fr, x, levels⟩ :=
  .slot h.single h.composite h.present h.levels h.type hcomes (.itself _)

theorem Meets.append {m₁ m₂ m₃ : Moment} {rest : List PathStep} (h : c.Meets m₁ path m₂)
    (h' : c.Meets m₂ rest m₃) : c.Meets m₁ (path ++ rest) m₃ := by
  induction h with
  | itself => exact h'
  | element hlisted hr hcount hcomes _ ih => exact .element hlisted hr hcount hcomes (ih h')
  | slot hlisted hcomposite hpresent hlevels ht hcomes _ ih =>
    exact .slot hlisted hcomposite hpresent hlevels ht hcomes (ih h')

/-- A list that a reading comes to belongs to a field of a record. -/
theorem Meets.exists_opens (h : c.Meets start path m) (hstart : start.listed = false)
    (hm : m.listed = true) :
    ∃ outer m₀ t, path = outer ++ [.field m.field.id] ∧ c.Meets start outer m₀ ∧
      c.Opens m₀ t m.levels ∧ c.ComesIn m₀ t m.levels m.field m.frame m.source := by
  suffices hall : (path = [] ∧ start = m) ∨ ∃ outer m₀ t, path = outer ++ [.field m.field.id] ∧
      c.Meets start outer m₀ ∧ c.Opens m₀ t m.levels ∧
      c.ComesIn m₀ t m.levels m.field m.frame m.source by
    rcases hall with ⟨-, rfl⟩ | hinside
    · rw [hstart] at hm
      cases hm
    · exact hinside
  clear hstart
  induction h with
  | itself m => exact .inl ⟨rfl, rfl⟩
  | element hlisted hr hcount hcomes _ ih =>
    rcases ih hm with ⟨-, rfl⟩ | ⟨outer, m₀, t, rfl, hmeets, hinside⟩
    · -- an element of a list is not a list
      cases hm
    · exact .inr ⟨_ :: outer, m₀, t, rfl, .element hlisted hr hcount hcomes hmeets, hinside⟩
  | @slot m₁ _ t _ _ _ _ _ hlisted hcomposite hpresent hlevels ht hcomes _ ih =>
    rcases ih hm with ⟨rfl, rfl⟩ | ⟨outer, m₀, t', rfl, hmeets, hinside⟩
    · exact .inr ⟨[], m₁, t, rfl, .itself m₁, ⟨hlisted, hcomposite, hpresent, hlevels, ht⟩, hcomes⟩
    · exact .inr ⟨_ :: outer, m₀, t', rfl,
        .slot hlisted hcomposite hpresent hlevels ht hcomes hmeets, hinside⟩

/-- A reader of records comes to a field in the view of the values before it. What holds of each value
that is read on the way holds of these. -/
theorem ComesToField.exists_view {nested : NestedDecoder} {fields : List Field} {slots : List Value}
    {fr fr' : Frame} {s x : Source} {g : Field} {context : Option Context} {P : Nat → Value → Prop}
    (hnamed : Schema.Named t.fields) (h : ComesToField c nested t fields slots fr s g fr' x)
    (hfields : t.fields.drop slots.length = fields)
    (hshows : (fr.before (c.sharesAfter? t.name) t slots).Shows
      (c.viewAfter t t context slots.reverse))
    (hslots : ∀ i v, slots.reverse[i]? = some v → P i v)
    (hread : ∀ i f fr' y v y', t.fields[i]? = some f →
      ComesToField c nested t fields slots fr s f fr' y →
      c.readField nested f fr' y = .done v y' → P i v) :
    ∃ earlier, t.fields[earlier.length]? = some g ∧
      fr'.Shows (c.viewAfter t t context earlier) ∧ ∀ i v, earlier[i]? = some v → P i v := by
  induction h with
  | here f fs slots fr s =>
    refine ⟨slots.reverse, ?_, hshows, hslots⟩
    rw [List.length_reverse]
    exact getElem?_of_drop hfields
  | @later f g fs slots fr fr' s s' x v hfirst hlater ih =>
    have hf := getElem?_of_drop hfields
    have hroot := hnamed.notRoot f (List.mem_of_getElem? hf)
    apply ih
    · rw [List.length_cons, ← List.drop_drop, hfields]
      rfl
    · exact shows_next rfl hroot hf hshows v
    · intro i w hw
      rw [List.reverse_cons, List.getElem?_append, List.length_reverse,
        List.getElem?_singleton] at hw
      split at hw
      · exact hslots i w hw
      · split at hw
        · obtain rfl : i = slots.length := by omega
          cases hw
          exact hread _ f _ s v s' hf (.here f fs slots fr s) hfirst
        · cases hw
    · intro i f' fr₁ y w y' hf' hcomes hdone
      exact hread i f' fr₁ y w y' hf' (.later hfirst hcomes) hdone

/-- The values are those of the first fields of a record, which were read one after the other under
the path. -/
def HasRead (c : Codec) (start : Moment) (outer : List PathStep) (t : RecordType)
    (values : List Value) : Prop :=
  ∀ (i : Nat) v, values[i]? = some v → ∃ f m s', t.fields[i]? = some f ∧
    c.Meets start (outer ++ [.field f.id]) m ∧ m.field = f ∧ m.listed = f.repetition.isSome ∧
    c.readAt m = .done v s'

theorem HasRead.after {outer : List PathStep} {values : List Value} (h : c.HasRead m [] t values)
    (hmeets : c.Meets start outer m) : c.HasRead start outer t values := by
  intro i v hv
  obtain ⟨f, m', s', hf, hinside, hread⟩ := h i v hv
  exact ⟨f, m', s', hf, hmeets.append hinside, hread⟩

/-- A field is come to in the view of what was read in the fields before it. -/
theorem Opens.exists_view (hnamed : Schema.Named t.fields) (h : c.Opens m t levels) {g : Field}
    {fr : Frame} {x : Source} (hcomes : c.ComesIn m t levels g fr x) :
    ∃ earlier, t.fields[earlier.length]? = some g ∧
      fr.Shows (c.viewAfter t t m.frame.context earlier) ∧ c.HasRead m [] t earlier := by
  unfold HasRead
  apply ComesToField.exists_view hnamed hcomes rfl (shows_first rfl)
  · intro i v hv
    cases hv
  · intro i f fr' y v y' hf hcomes hread
    rw [← readAt_field] at hread
    exact ⟨f, _, y', hf, h.meets hcomes, rfl, rfl, hread⟩

/-- Below a record that is not the root all moments have its context. -/
theorem Meets.context_eq (hl : c.schema.Linked)
    (hnamed : c.AllNamed) (h : c.Meets m path m')
    (hdeclared : m.field.type.kind.isComposite = true →
      (c.schema.declared? m.field.type.name).isSome = true) :
    m'.frame.context = m.frame.context := by
  induction h with
  | itself => rfl
  | element _ _ _ _ _ ih => exact ih hdeclared
  | slot hlisted hcomposite hpresent hlevels ht hcomes _ ih =>
    have hroot := isRoot_eq_false hl (hdeclared hcomposite)
    rw [← type?_name ht] at hroot
    obtain ⟨earlier, -, hshows, -⟩ :=
      Opens.exists_view (hnamed _ _ ht) ⟨hlisted, hcomposite, hpresent, hlevels, ht⟩ hcomes
    rw [ih (declared_of_type? hl ht _ hcomes.mem), hshows.context, viewAfter, contextBefore, hroot]
    rfl

/-- Inside a record all moments have the context of the field of the record that they stand in. -/
theorem Meets.exists_top (hl : c.schema.Linked)
    (hnamed : c.AllNamed) (h : c.Meets start path m)
    (hstart : start.listed = false) (hpath : path ≠ []) :
    ∃ t top f rest, c.type? start.field.type.name = some t ∧ path = .field f.id :: rest ∧
      t.fields[top.length]? = some f ∧ c.HasRead start [] t top ∧
      m.frame.context = c.contextBefore t start.frame.context top := by
  cases h with
  | itself => exact absurd rfl hpath
  | element hlisted =>
    rw [hstart] at hlisted
    cases hlisted
  | slot hlisted hcomposite hpresent hlevels ht hcomes hinside =>
    obtain ⟨top, hg, hshows, hread⟩ :=
      Opens.exists_view (hnamed _ _ ht) ⟨hlisted, hcomposite, hpresent, hlevels, ht⟩ hcomes
    refine ⟨_, top, _, _, ht, rfl, hg, hread, ?_⟩
    rw [hinside.context_eq hl hnamed (declared_of_type? hl ht _ hcomes.mem)]
    exact hshows.context

/-- At the moment of a reading the view is that of the values read before. -/
structure ReadView (c : Codec) (start : Moment) (path : List PathStep) (m : Moment) (view : View) :
    Prop where
  /-- The earlier fields were read, in the record that the moment stands in. -/
  own : ∃ outer m₀, path = outer ++ [.field m.field.id] ∧ c.Meets start outer m₀ ∧
    c.type? m₀.field.type.name = some view.type ∧
    view.type.fields[view.earlier.length]? = some m.field ∧
    c.HasRead start outer view.type view.earlier
  /-- The context is what the whole record, as far as it was read, hands on. -/
  context : ∃ t top f rest, c.type? start.field.type.name = some t ∧ path = .field f.id :: rest ∧
    t.fields[top.length]? = some f ∧ c.HasRead start [] t top ∧
    view.context = c.contextBefore t start.frame.context top

theorem Meets.exists_view (hl : c.schema.Linked)
    (hnamed : c.AllNamed) (h : c.Meets start path m)
    (hstart : start.listed = false) (hm : m.listed = true) :
    ∃ view, c.ReadView start path m view ∧ m.frame.Shows view := by
  obtain ⟨outer, m₀, t, rfl, hmeets, hopens, hcomes⟩ := h.exists_opens hstart hm
  obtain ⟨earlier, hfield, hshows, hread⟩ := hopens.exists_view (hnamed _ _ hopens.type) hcomes
  have htop := h.exists_top hl hnamed hstart (by simp)
  rw [hshows.context] at htop
  exact ⟨_, ⟨⟨outer, m₀, rfl, hmeets, hopens.type, hfield, hread.after hmeets⟩, htop⟩, hshows⟩

/-! ### Failures -/

theorem ComesToElement.failed {read : Reader Value} {r : Repetition} {count left i : Nat}
    {items : List Value} {s x x' : Source} {stop : DecodeStop}
    (h : ComesToElement read count left s i x) (hread : read x = .failed stop x') :
    readElements read r count left items s = .failed (stop.map (.inElement i)) x' := by
  induction h generalizing items with
  | here left s =>
    rw [readElements]
    simp only [hread]
  | later hfirst hguard _ ih =>
    rw [readElements]
    simp only [hfirst, if_neg hguard]
    exact ih hread

theorem ComesToField.failed {nested : NestedDecoder} {fields : List Field} {slots : List Value}
    {fr fr' : Frame} {s x x' : Source} {g : Field} {stop : DecodeStop}
    (h : ComesToField c nested t fields slots fr s g fr' x)
    (hread : c.readField nested g fr' x = .failed stop x') :
    c.readFields nested t fields slots fr s = .failed (stop.map (.inField t.name g.id)) x' := by
  induction h with
  | here f fs slots fr s =>
    rw [readFields]
    simp only [hread]
  | later hfirst _ ih =>
    rw [readFields]
    simp only [hfirst]
    exact ih hread

/-- A record that fails to be read makes the value fail that it is. -/
theorem Opens.failed (h : c.Opens m t levels) {stop : DecodeStop} {x' : Source}
    (hread : c.readFields (c.decodeRecord levels) t t.fields []
      (.start (if c.isRoot t.name then none else m.frame.context)) m.source = .failed stop x') :
    c.readAt m = .failed stop x' := by
  rw [readAt_single h.single, elementReader, readElement_present h.present, readBase,
    if_pos h.composite, h.levels, decodeRecord_succ c levels h.type, ← type?_name h.type]
  simp only [Reader.andThen, hread, Pass.map]

/-- An error at a moment is the error of the whole reading, under the path to the moment. -/
theorem Meets.failed (h : c.Meets m path m') {e' : DecodeError} {x' : Source}
    (hread : c.readAt m' = .failed (.error e') x') :
    ∃ e, c.readAt m = .failed (.error e) x' ∧ e.path = path ++ e'.path ∧ e.kind = e'.kind ∧
      e.cause = e'.cause ∧ e.offset = e'.offset := by
  induction h with
  | itself => exact ⟨e', hread, rfl, rfl, rfl, rfl⟩
  | element hlisted hr hcount hcomes _ ih =>
    obtain ⟨e, he, hpath, hrest⟩ := ih hread
    rw [readAt_single rfl] at he
    refine ⟨e.inElement _, ?_, congrArg (_ :: ·) hpath, hrest⟩
    rw [readAt_counted hlisted hr hcount, hcomes.failed he]
    rfl
  | slot hlisted hcomposite hpresent hlevels ht hcomes _ ih =>
    obtain ⟨e, he, hpath, hrest⟩ := ih hread
    rw [readAt_field] at he
    have hfailed :=
      Opens.failed ⟨hlisted, hcomposite, hpresent, hlevels, ht⟩ (hcomes.failed he)
    exact ⟨_, hfailed, congrArg (_ :: ·) hpath, hrest⟩

end Reading

/-! ## Writings -/

section Writing

variable {spot last start : Spot} {path : List PathStep} {t own : RecordType} {slots : List Value}

/-- At the spot a record of the type is written, which has a record type of its own. -/
structure Unfolds (c : Codec) (spot : Spot) (t own : RecordType) (slots : List Value) : Prop where
  single : spot.repeated = none
  composite : spot.field.type.kind.isComposite = true
  value : spot.value = .record own slots
  type : c.writable? spot.field.type.name own slots = some t

theorem Unfolds.name_eq (h : c.Unfolds spot t own slots) : own.name = t.name := by
  have ht := h.type
  unfold writable? at ht
  split at ht
  · split at ht
    · rename_i hsame
      cases ht
      exact hsame.1
    · cases ht
  · cases ht

theorem Unfolds.type? (h : c.Unfolds spot t own slots) :
    c.type? spot.field.type.name = some t := (writable?_eq_some h.type).1

/-- In the record at the spot there is the field, with its frame and its value. -/
abbrev HasSlot (c : Codec) (spot : Spot) (t own : RecordType) (slots : List Value) (g : Field)
    (fr : Frame) (v : Value) : Prop :=
  ComesToSlot c t own t.fields [] (.start (if c.isRoot t.name then none else spot.frame.context))
    slots g fr v

/-- A list inside a record belongs to a field of a record. -/
theorem Within.exists_unfolds (h : c.Within start path spot) (hstart : start.repeated = none)
    {r : Repetition} (hr : spot.repeated = some r) :
    ∃ outer s₀ t own slots, path = outer ++ [.field spot.field.id] ∧ c.Within start outer s₀ ∧
      c.Unfolds s₀ t own slots ∧ c.HasSlot s₀ t own slots spot.field spot.frame spot.value := by
  suffices hall : (path = [] ∧ start = spot) ∨ ∃ outer s₀ t own slots,
      path = outer ++ [.field spot.field.id] ∧ c.Within start outer s₀ ∧
      c.Unfolds s₀ t own slots ∧ c.HasSlot s₀ t own slots spot.field spot.frame spot.value by
    rcases hall with ⟨-, rfl⟩ | hinside
    · rw [hstart] at hr
      cases hr
    · exact hinside
  clear hstart
  induction h with
  | itself => exact .inl ⟨rfl, rfl⟩
  | @inside s₁ next last step path henters hwithin ih =>
    rcases ih hr with ⟨rfl, rfl⟩ | ⟨outer, s₀, t, own, slots, rfl, hinside, hrest⟩
    · cases henters with
      | element => cases hr
      | slot hsingle hcomposite hvalue ht hcomes =>
        exact .inr ⟨[], s₁, _, _, _, rfl, .itself s₁, ⟨hsingle, hcomposite, hvalue, ht⟩, hcomes⟩
    · exact .inr ⟨_ :: outer, s₀, t, own, slots, rfl, .inside henters hinside, hrest⟩

/-- A field is written in the view of the values before it. -/
theorem ComesToSlot.exists_view {fields : List Field} {before vs : List Value} {fr fr' : Frame}
    {g : Field} {v : Value} {context : Option Context} (hnamed : Schema.Named t.fields)
    (hown : own.name = t.name) (h : c.ComesToSlot t own fields before fr vs g fr' v)
    (hfields : t.fields.drop before.length = fields)
    (hshows : (fr.before (c.sharesAfter? t.name) own before).Shows
      (c.viewAfter t own context before.reverse))
    (hslots : slots = before.reverse ++ vs) :
    ∃ earlier later, slots = earlier ++ v :: later ∧ t.fields[earlier.length]? = some g ∧
      fr'.Shows (c.viewAfter t own context earlier) := by
  induction h with
  | here f fs before fr v vs =>
    refine ⟨before.reverse, vs, hslots, ?_, hshows⟩
    rw [List.length_reverse]
    exact getElem?_of_drop hfields
  | @later f g fs before fr fr' v w vs _ ih =>
    have hf := getElem?_of_drop hfields
    have hroot := hnamed.notRoot f (List.mem_of_getElem? hf)
    apply ih
    · rw [List.length_cons, ← List.drop_drop, hfields]
      rfl
    · exact shows_next hown hroot hf hshows v
    · rw [hslots, List.reverse_cons, List.append_assoc, List.singleton_append]

theorem Unfolds.exists_view (hnamed : Schema.Named t.fields) (h : c.Unfolds spot t own slots)
    {g : Field} {fr : Frame} {v : Value} (hcomes : c.HasSlot spot t own slots g fr v) :
    ∃ earlier later, slots = earlier ++ v :: later ∧ t.fields[earlier.length]? = some g ∧
      fr.Shows (c.viewAfter t own spot.frame.context earlier) :=
  hcomes.exists_view hnamed h.name_eq rfl (shows_first h.name_eq) rfl

/-- Below a record that is not the root all spots have its context. -/
theorem Within.context_eq (hl : c.schema.Linked) (h : c.Within spot path last)
    (hdeclared : spot.field.type.kind.isComposite = true →
      (c.schema.declared? spot.field.type.name).isSome = true) :
    last.frame.context = spot.frame.context := by
  induction h with
  | itself => rfl
  | inside henters _ ih =>
    cases henters with
    | element => exact ih hdeclared
    | slot _ hcomposite _ ht hcomes =>
      obtain ⟨ht, -⟩ := writable?_eq_some ht
      have hroot := isRoot_eq_false hl (hdeclared hcomposite)
      rw [← type?_name ht] at hroot
      rw [ih (declared_of_type? hl ht _ hcomes.mem), hcomes.context_eq hroot, hroot]
      rfl

/-- Inside a record all spots have the context of the field of the record that they stand in. -/
theorem Within.exists_top (hl : c.schema.Linked)
    (hnamed : c.AllNamed)
    (h : c.Within start path spot) (hstart : start.repeated = none) (hpath : path ≠ []) :
    ∃ t own top v later f rest, start.value = .record own (top ++ v :: later) ∧
      c.type? start.field.type.name = some t ∧ path = .field f.id :: rest ∧
      t.fields[top.length]? = some f ∧
      spot.frame.context = c.contextBefore own start.frame.context top := by
  cases h with
  | itself => exact absurd rfl hpath
  | inside henters hinside =>
    cases henters with
    | element hrepeated =>
      rw [hstart] at hrepeated
      cases hrepeated
    | slot hsingle hcomposite hvalue ht hcomes =>
      have hunfolds : c.Unfolds _ _ _ _ := ⟨hsingle, hcomposite, hvalue, ht⟩
      obtain ⟨top, later, rfl, hg, hshows⟩ := hunfolds.exists_view (hnamed _ _ hunfolds.type?) hcomes
      refine ⟨_, _, top, _, later, _, _, hvalue, hunfolds.type?, rfl, hg, ?_⟩
      rw [hinside.context_eq hl (declared_of_type? hl hunfolds.type? _ hcomes.mem)]
      exact hshows.context

/-- At the spot of a record that is written the view is that of the values before it. -/
structure WriteView (c : Codec) (start : Spot) (path : List PathStep) (spot : Spot) (view : View) :
    Prop where
  /-- The earlier values stand before it in the record that the spot is in. -/
  own : ∃ outer s₀ own later, path = outer ++ [.field spot.field.id] ∧ c.Within start outer s₀ ∧
    s₀.value = .record own (view.earlier ++ spot.value :: later) ∧
    c.type? s₀.field.type.name = some view.type ∧
    view.type.fields[view.earlier.length]? = some spot.field
  /-- The context is what the whole record hands on. -/
  context : ∃ t own top v later f rest, start.value = .record own (top ++ v :: later) ∧
    c.type? start.field.type.name = some t ∧ path = .field f.id :: rest ∧
    t.fields[top.length]? = some f ∧ view.context = c.contextBefore own start.frame.context top

theorem Within.exists_view (hl : c.schema.Linked)
    (hnamed : c.AllNamed)
    (h : c.Within start path spot) (hstart : start.repeated = none) {r : Repetition}
    (hr : spot.repeated = some r) :
    ∃ view, c.WriteView start path spot view ∧ spot.frame.Shows view := by
  obtain ⟨outer, s₀, t, own, slots, rfl, hwithin, hunfolds, hcomes⟩ := h.exists_unfolds hstart hr
  obtain ⟨earlier, later, rfl, hfield, hshows⟩ :=
    hunfolds.exists_view (hnamed _ _ hunfolds.type?) hcomes
  have htop := h.exists_top hl hnamed hstart (by simp)
  rw [hshows.context] at htop
  exact ⟨_, ⟨⟨outer, s₀, own, later, rfl, hwithin, hunfolds.value, hunfolds.type?, hfield⟩, htop⟩,
    hshows⟩

/-! ### Successes -/

theorem writeItems_done {sink : Sink} {f : Field} {fr : Frame} {i j : Nat} {items : List Value}
    {v : Value} {out out' : Output} (h : c.writeItems sink f fr i items out = .done () out')
    (hv : items[j]? = some v) :
    ∃ out₁ out₂, c.writeValue sink f none fr v out₁ = .done () out₂ := by
  induction items generalizing i j out with
  | nil => cases hv
  | cons w ws ih =>
    rw [writeItems_cons, Writer.andThen] at h
    cases hw : c.writeValue sink f none fr w out with
    | failed e out₁ =>
      rw [hw] at h
      cases h
    | done _ out₁ =>
      rw [hw] at h
      cases j with
      | zero =>
        cases hv
        exact ⟨out, out₁, hw⟩
      | succ j => exact ih h hv

theorem ComesToSlot.done {sink : Sink} {fields : List Field} {before vs : List Value}
    {fr fr' : Frame} {g : Field} {v : Value} {out out' : Output}
    (hcomes : c.ComesToSlot t own fields before fr vs g fr' v)
    (h : c.writeSlots sink t own fields before fr vs out = .done () out') :
    ∃ out₁ out₂, c.writeValue sink g g.repetition fr' v out₁ = .done () out₂ := by
  induction hcomes generalizing out with
  | here f fs before fr v vs =>
    rw [writeSlots_cons, Writer.andThen] at h
    cases hv : c.writeValue sink f f.repetition (fr.before (c.sharesAfter? t.name) own before) v
        out with
    | failed e out₁ =>
      rw [hv] at h
      cases h
    | done _ out₁ => exact ⟨out, out₁, hv⟩
  | @later f g fs before fr fr' v w vs _ ih =>
    rw [writeSlots_cons, Writer.andThen] at h
    cases hv : c.writeValue sink f f.repetition (fr.before (c.sharesAfter? t.name) own before) v
        out with
    | failed e out₁ =>
      rw [hv] at h
      cases h
    | done _ out₁ =>
      rw [hv] at h
      exact ih h

/-- A value that was written was written at each spot inside. -/
theorem Within.done (h : c.Within spot path last) {sink : Sink} {out out' : Output}
    (hdone : c.writeValue sink spot.field spot.repeated spot.frame spot.value out = .done () out') :
    ∃ out₁ out₂,
      c.writeValue sink last.field last.repeated last.frame last.value out₁ = .done () out₂ := by
  induction h generalizing out out' with
  | itself => exact ⟨out, out', hdone⟩
  | inside henters _ ih =>
    cases henters with
    | element hr hvalue hv =>
      rw [hr, hvalue, writeValue_list, Writer.counted] at hdone
      split at hdone
      · cases hdone
      · obtain ⟨out₁, out₂, hitem⟩ := writeItems_done hdone hv
        exact ih hitem
    | slot hsingle hcomposite hvalue ht hcomes =>
      rw [hsingle, hvalue, writeValue_record _ sink hcomposite ht] at hdone
      obtain ⟨out₁, out₂, hslot⟩ := hcomes.done hdone
      exact ih hslot

end Writing

end Codec

end Savefile
