import Savefile.Proofs.Containment
import Savefile.Proofs.WellFormed
import Savefile.Proofs.Writer

/-!
# The order of declarations

Types are looked up by name, and how many there are only bounds how deep they are searched. So a
schema with the same types in another order is accepted just if the first is, and the codecs of the
two read and write every record alike.
-/
namespace Savefile

namespace Schema

/-- The schema with other declared types. -/
def declaring (s : Schema) (types : List RecordType) : Schema := { s with types }

/-- Other declared types of which each name stands for the same one. -/
structure Redeclares (s : Schema) (types : List RecordType) : Prop where
  declared : ∀ name, (s.declaring types).declared? name = s.declared? name
  length : types.length = s.types.length

theorem declared?_eq_some_iff {s : Schema} (hdistinct : (s.types.map (·.name)).Nodup)
    {name : String} {t : RecordType} :
    s.declared? name = some t ↔ t ∈ s.types ∧ t.name = name := by
  constructor
  · intro h
    exact ⟨mem_of_declared? h, declared?_name h⟩
  · rintro ⟨ht, rfl⟩
    exact declared?_of_mem hdistinct ht

/-- The order of types whose names differ does not matter to a look-up. -/
theorem redeclares_of_perm {s : Schema} {types : List RecordType} (h : s.types.Perm types)
    (hdistinct : (s.types.map (·.name)).Nodup) : s.Redeclares types := by
  have hother : ((s.declaring types).types.map (·.name)).Nodup := (h.map _).nodup_iff.mp hdistinct
  refine ⟨fun name => ?_, h.length_eq.symm⟩
  ext t
  rw [declared?_eq_some_iff hother, declared?_eq_some_iff hdistinct]
  exact and_congr_left fun _ => h.symm.mem_iff

namespace Redeclares

variable {s : Schema} {types : List RecordType} (h : s.Redeclares types)

include h

theorem widthWithin_eq (depth : Nat) (t : TypeRef) :
    (s.declaring types).widthWithin depth t = s.widthWithin depth t := by
  induction depth generalizing t with
  | zero => rfl
  | succ depth ih => rw [widthWithin, widthWithin, h.declared, funext ih]

theorem fixedWidth_eq (t : TypeRef) : (s.declaring types).fixedWidth t = s.fixedWidth t := by
  rw [fixedWidth, fixedWidth, h.widthWithin_eq]
  exact congrArg (s.widthWithin · t) h.length

theorem chainBack?_eq (start : String) (fuel : Nat) (chain : List String) :
    (s.declaring types).chainBack? start fuel chain = s.chainBack? start fuel chain := by
  induction fuel generalizing chain with
  | zero => rfl
  | succ fuel ih => rw [chainBack?, chainBack?, funext h.declared, funext ih]

theorem selfChain?_eq (name : String) :
    (s.declaring types).selfChain? name = s.selfChain? name := by
  rw [selfChain?, selfChain?, h.chainBack?_eq]
  exact congrArg (fun n => (s.chainBack? name (n + 1) [name]).map List.reverse) h.length

theorem placeable_iff {f : Field} : (s.declaring types).Placeable f ↔ s.Placeable f := by
  constructor
  · rintro ⟨hdeclared, hwidth⟩
    simp only [h.declared, h.fixedWidth_eq] at hdeclared hwidth
    exact ⟨hdeclared, hwidth⟩
  · rintro ⟨hdeclared, hwidth⟩
    simp only [← h.declared, ← h.fixedWidth_eq] at hdeclared hwidth
    exact ⟨hdeclared, hwidth⟩

end Redeclares

theorem fault?_perm {s : Schema} {types : List RecordType} (h : s.types.Perm types)
    (hdistinct : (s.types.map (·.name)).Nodup) :
    (s.declaring types).fault? = none ↔ s.fault? = none := by
  have hsame := redeclares_of_perm h hdistinct
  have hmem : ∀ t, t ∈ (s.declaring types).types ↔ t ∈ s.types := fun t => h.symm.mem_iff
  have hroot : (s.declaring types).root = s.root := rfl
  rw [fault?_eq_none_iff, fault?_eq_none_iff]
  simp only [hsame.placeable_iff, hsame.selfChain?_eq, hmem, hroot]

/-- A schema that is put together is put together with its types in any other order as well. -/
theorem build_perm {order : ByteOrder} {rootName : String} {types types' : List RecordType}
    {items : List Field} {s : Schema} (h : types.Perm types')
    (hs : build order rootName types items = .ok s) :
    build order rootName types' items = .ok (s.declaring types') ∧ s.Redeclares types' := by
  obtain ⟨rfl, hnames, hclash, hfault⟩ := build_eq_ok_iff.mp hs
  refine ⟨build_eq_ok_iff.mpr ⟨rfl, (h.map _).nodup_iff.mp hnames, ?_, ?_⟩,
    redeclares_of_perm h hnames⟩
  · intro t ht
    exact hclash t (h.symm.subset ht)
  · exact (fault?_perm h hnames).mpr hfault

end Schema

namespace Codec

/-- The codec of a schema with other declared types. -/
def declaring (c : Codec) (types : List RecordType) : Codec :=
  { c with schema := c.schema.declaring types }

section Redeclared

variable {c : Codec} {types : List RecordType}

theorem isRoot_declaring (name : String) : (c.declaring types).isRoot name = c.isRoot name := rfl

theorem sharesAfter?_declaring (name : String) :
    (c.declaring types).sharesAfter? name = c.sharesAfter? name := rfl

theorem readScalar_declaring : (c.declaring types).readScalar = c.readScalar := rfl

theorem writeScalar_declaring : (c.declaring types).writeScalar = c.writeScalar := rfl

theorem countStop?_declaring : (c.declaring types).countStop? = c.countStop? := rfl

variable (h : c.schema.Redeclares types)

include h

theorem type?_redeclared (name : String) : (c.declaring types).type? name = c.type? name := by
  simp only [type?, isRoot_declaring]
  exact congrArg _ (h.declared name)

theorem keptWidth_redeclared (t : TypeRef) : (c.declaring types).keptWidth t = c.keptWidth t :=
  congrArg (·.getD 0) (h.fixedWidth_eq t)

theorem readElement_redeclared (nested : NestedDecoder) :
    (c.declaring types).readElement nested = c.readElement nested := by
  funext f fr src
  simp only [readElement, readBase, skipAbsent, readScalar_declaring, keptWidth_redeclared h]

theorem readFields_redeclared (nested : NestedDecoder) (t : RecordType) (fields : List Field) :
    (c.declaring types).readFields nested t fields = c.readFields nested t fields := by
  have hfield : (c.declaring types).readField nested = c.readField nested := by
    funext f fr src
    simp only [readField, readElement_redeclared h]
  induction fields with
  | nil => rfl
  | cons f fs ih =>
    funext slots fr
    simp only [readFields_cons, hfield, sharesAfter?_declaring, ih]

theorem decodeRecord_redeclared (depth : Nat) :
    (c.declaring types).decodeRecord depth = c.decodeRecord depth := by
  induction depth with
  | zero => rfl
  | succ depth ih =>
    funext name context src
    simp only [decodeRecord, type?_redeclared h, readFields_redeclared h, ih]
    rfl

theorem decodeType_redeclared : (c.declaring types).decodeType = c.decodeType := by
  have hlimit : (c.declaring types).depthLimit = c.depthLimit := by
    funext length
    exact congrArg (fun n => 2 * (length + 1) * (n + 1) + 1) h.length
  funext name context src
  simp only [decodeType, hlimit, decodeRecord_redeclared h]

theorem writable?_redeclared (wanted : String) (found : RecordType) (slots : List Value) :
    (c.declaring types).writable? wanted found slots = c.writable? wanted found slots := by
  simp only [writable?, type?_redeclared h]

theorem writeSingle_redeclared : (c.declaring types).writeSingle = c.writeSingle := by
  funext sink f v out
  simp only [writeSingle, writeScalar_declaring, keptWidth_redeclared h]

end Redeclared

mutual

theorem writeValue_redeclared {c : Codec} {types : List RecordType}
    (h : c.schema.Redeclares types) (sink : Sink) :
    ∀ (v : Value) (f : Field) (repeated : Option Repetition) (fr : Frame),
      (c.declaring types).writeValue sink f repeated fr v = c.writeValue sink f repeated fr v
  | .list items, f, repeated, fr => by
    funext out
    simp only [writeValue, writeSingle_redeclared h, countStop?_declaring,
      writeItems_redeclared h sink items]
  | .record u slots, f, repeated, fr => by
    funext out
    simp only [writeValue, writeSingle_redeclared h, writable?_redeclared h,
      writeSlots_redeclared h sink slots]
    rfl
  | .null, f, repeated, fr => by
    funext out
    simp only [writeValue, writeSingle_redeclared h]
  | .scalar _, f, repeated, fr => by
    funext out
    simp only [writeValue, writeSingle_redeclared h]
  | .foreign _ _, f, repeated, fr => by
    funext out
    simp only [writeValue, writeSingle_redeclared h]

theorem writeItems_redeclared {c : Codec} {types : List RecordType}
    (h : c.schema.Redeclares types) (sink : Sink) :
    ∀ (vs : List Value) (f : Field) (fr : Frame) (i : Nat),
      (c.declaring types).writeItems sink f fr i vs = c.writeItems sink f fr i vs
  | [], f, fr, i => by
    funext out
    rw [writeItems, writeItems]
  | v :: vs, f, fr, i => by
    rw [writeItems_cons, writeItems_cons, writeValue_redeclared h sink v,
      writeItems_redeclared h sink vs]

theorem writeSlots_redeclared {c : Codec} {types : List RecordType}
    (h : c.schema.Redeclares types) (sink : Sink) :
    ∀ (vs : List Value) (t own : RecordType) (fields : List Field) (before : List Value)
      (fr : Frame), (c.declaring types).writeSlots sink t own fields before fr vs =
        c.writeSlots sink t own fields before fr vs
  | [], t, own, fields, before, fr => by
    funext out
    rw [writeSlots, writeSlots]
  | v :: vs, t, own, [], before, fr => by
    funext out
    rw [writeSlots, writeSlots]
  | v :: vs, t, own, f :: fs, before, fr => by
    simp only [writeSlots_cons, sharesAfter?_declaring, writeValue_redeclared h sink v,
      writeSlots_redeclared h sink vs]

end

theorem encodeType_redeclared {c : Codec} {types : List RecordType}
    (h : c.schema.Redeclares types) : (c.declaring types).encodeType = c.encodeType := by
  funext sink name context r
  simp only [encodeType, encodeRecord, writable?_redeclared h, writeSlots_redeclared h]
  rfl

/-- The order in which types are declared does not matter. A schema is put together in every order
or in none; the codecs of the schemas read every type in every context alike, to the same record and
the same place in the input or to the same error, and write every record alike. -/
theorem types_in_any_order {types types' : List RecordType} (h : types.Perm types')
    (order : ByteOrder) (rootName : String) (items : List Field) :
    ((∃ s, Schema.build order rootName types items = .ok s) ↔
      ∃ s', Schema.build order rootName types' items = .ok s') ∧
    ∀ s s', Schema.build order rootName types items = .ok s →
      Schema.build order rootName types' items = .ok s' →
      ∀ options, ∃ c c', compile (some s) options = .ok c ∧ compile (some s') options = .ok c' ∧
        (∀ name context src, c.decodeType name context src = c'.decodeType name context src) ∧
        (∀ data, c.decodePrefix data = c'.decodePrefix data) ∧
        (∀ sink name context r,
          c.encodeType sink name context r = c'.encodeType sink name context r) ∧
        ∀ r, c.encode r = c'.encode r := by
  constructor
  · constructor
    · rintro ⟨s, hs⟩
      exact ⟨_, (Schema.build_perm h hs).1⟩
    · rintro ⟨s', hs'⟩
      exact ⟨_, (Schema.build_perm h.symm hs').1⟩
  · intro s s' hs hs' options
    obtain ⟨hother, hsame⟩ := Schema.build_perm h hs
    obtain rfl : s.declaring types' = s' := Except.ok.inj (hother.symm.trans hs')
    have hdecode := decodeType_redeclared (c := ⟨s, options⟩) hsame
    have hencode := encodeType_redeclared (c := ⟨s, options⟩) hsame
    refine ⟨_, _, compile_of_fault? (Schema.build_eq_ok_iff.mp hs).2.2.2 options,
      compile_of_fault? (Schema.build_eq_ok_iff.mp hs').2.2.2 options, ?_, ?_, ?_, ?_⟩
    · intro name context src
      rw [← hdecode]
      rfl
    · intro data
      simp only [decodePrefix, decodeFrom, ← hdecode]
      rfl
    · intro sink name context r
      rw [← hencode]
      rfl
    · intro r
      simp only [encode, encodeTo, ← hencode]
      rfl

/-- Two types that hold lists of one another, the first of which refers forward. -/
theorem types_in_any_order_forward :
    ∃ (branch leaf : RecordType) (items : List Field) (s s' : Schema),
      branch = ⟨"branch", [⟨"n", .ofPrimitive .u8, none, none⟩,
        ⟨"leaves", .ofName "leaf", none,
          some ⟨.count, ⟨"n", some (Expr.Term.eval (.ident "n"))⟩⟩⟩]⟩ ∧
      leaf = ⟨"leaf", [⟨"m", .ofPrimitive .u8, none, none⟩,
        ⟨"branches", .ofName "branch", none,
          some ⟨.count, ⟨"m", some (Expr.Term.eval (.ident "m"))⟩⟩⟩]⟩ ∧
      items = [⟨"top", .ofName "branch", none, none⟩] ∧
      s = ⟨.big, [branch, leaf], ⟨"root", items⟩⟩ ∧ s' = ⟨.big, [leaf, branch], ⟨"root", items⟩⟩ ∧
      Schema.build .big "" [branch, leaf] items = .ok s ∧
      Schema.build .big "" [leaf, branch] items = .ok s' ∧
      ((⟨s, .strict⟩ : Codec).decodePrefix [1, 1, 0]).toOption.map Prod.snd = some 3 ∧
      ∃ c c', compile (some s) .strict = .ok c ∧ compile (some s') .strict = .ok c' ∧
        (∀ name context src, c.decodeType name context src = c'.decodeType name context src) ∧
        (∀ data, c.decodePrefix data = c'.decodePrefix data) ∧
        (∀ sink name context r,
          c.encodeType sink name context r = c'.encodeType sink name context r) ∧
        ∀ r, c.encode r = c'.encode r := by
  refine ⟨_, _, _, _, _, rfl, rfl, rfl, rfl, rfl, ?forward, ?backward, ?_,
    (types_in_any_order (.swap _ _ _) .big "" _).2 _ _ ?forward ?backward .strict⟩
  case forward => rfl
  case backward => rfl
  decide +kernel

end Codec

end Savefile
