import Savefile.Proofs.Literal
import Savefile.Proofs.RoundTrip
import Savefile.Proofs.Truncation
import Savefile.Proofs.WellFormed

/-!
# Compact formats and their blocks

Each token of a compact format asks for a number of scalars of one kind. So the records of the
format all have the same width, any bytes of at least that width start with one, and fewer bytes are
reported as truncated: the counts are literals, and nothing else can fail.
-/
namespace Savefile

namespace Schema

/-- How many scalars a token asks for, and of which kind. -/
structure Run where
  primitive : Primitive
  count : Nat
  deriving DecidableEq

/-- The number that stands before the letter of a token, or one. -/
def FormatToken.count (t : FormatToken) : Nat :=
  if t.digits.isEmpty then 1 else Decimal.digitsValue t.digits

def FormatToken.run? (t : FormatToken) : Option Run :=
  (formatPrimitive? t.code).map fun p => ⟨p, t.count⟩

/-- What the tokens of a format ask for, in order. -/
def formatRuns? (format : String) : Option (List Run) :=
  (formatParts format).2.mapM fun cs => (FormatToken.parse? cs).bind FormatToken.run?

namespace Run

/-- The number of bytes of all scalars together. -/
def width (run : Run) : Nat := run.count * run.primitive.width

/-- The scalar with the given number, counted from zero, in bytes that start with them. -/
def scalarAt (run : Run) (order : ByteOrder) (bytes : List UInt8) (i : Nat) : Scalar :=
  .decode order run.primitive ((bytes.drop (i * run.primitive.width)).take run.primitive.width)

/-- What bytes hold that start with the scalars: a single one alone, and any other number of them
as a list. -/
def value (run : Run) (order : ByteOrder) (bytes : List UInt8) : Value :=
  if run.count = 1 then .scalar (run.scalarAt order bytes 0)
  else .list ((List.range run.count).map fun i => .scalar (run.scalarAt order bytes i))

end Run

def blockWidth (runs : List Run) : Nat := (runs.map Run.width).sum

/-- What bytes hold that start with a block. -/
def blockValues (order : ByteOrder) : List Run → List UInt8 → List Value
  | [], _ => []
  | run :: runs, bytes => run.value order bytes :: blockValues order runs (bytes.drop run.width)

/-- A field that is always there and holds what a token asks for. -/
structure Run.IsFieldOf (run : Run) (f : Field) : Prop where
  condition : f.condition = none
  kind : f.type.kind = .primitive run.primitive
  limit : run.count < Expr.countLimit
  repetition : f.repetition =
    if run.count = 1 then none else some ⟨.count, literalCount run.count⟩

section Tokens

theorem FormatToken.isDigit_of_parse? {cs : List Char} {t : FormatToken} (h : parse? cs = some t) :
    ∀ c ∈ t.digits, c.isDigit := by
  have hdigits : t.digits = cs.takeWhile Char.isDigit := by
    unfold parse? at h
    dsimp only at h
    split at h
    · cases h
    · split at h
      · split at h
        · cases h
          rfl
        · split at h
          · cases h
          · cases h
            rfl
        · cases h
      · cases h
  intro c hc
  rw [hdigits] at hc
  exact List.all_eq_true.mp List.all_takeWhile c hc

theorem tokenRepetition_ok {t : FormatToken} (hdigits : ∀ c ∈ t.digits, c.isDigit)
    {repetition : Option Repetition} (h : tokenRepetition t.digits = .ok repetition) :
    t.count < Expr.countLimit ∧
      repetition = if t.count = 1 then none else some ⟨.count, literalCount t.count⟩ := by
  unfold tokenRepetition at h
  unfold FormatToken.count
  split at h
  · rename_i hempty
    cases h
    rw [if_pos hempty]
    exact ⟨by decide, rfl⟩
  · rename_i hempty
    rw [if_neg hempty]
    split at h
    · cases h
    · rename_i n hn
      obtain ⟨rfl, hlimit⟩ := Decimal.readSigned_digits hdigits hn
      cases h
      refine ⟨hlimit, ?_⟩
      simp only [Nat.cast_eq_one, Int.toNat_natCast]

theorem isFieldOf_of_tokenField {i : Nat} {cs : List Char} {f : Field}
    (h : tokenField i cs = .ok f) :
    ∃ run, (FormatToken.parse? cs).bind FormatToken.run? = some run ∧ run.IsFieldOf f := by
  obtain ⟨t, p, id, repetition, ht, hp, -, hrepetition, rfl⟩ := tokenField_ok h
  obtain ⟨hlimit, hrepetition⟩ := tokenRepetition_ok (FormatToken.isDigit_of_parse? ht) hrepetition
  refine ⟨⟨p, t.count⟩, ?_, rfl, rfl, hlimit, hrepetition⟩
  rw [ht, Option.bind_some, FormatToken.run?, hp]
  rfl

theorem isFieldOf_of_tokenFields {tokens : List (List Char)} {i : Nat} {fields : List Field}
    (h : tokenFields i tokens = .ok fields) :
    ∃ runs, tokens.mapM (fun cs => (FormatToken.parse? cs).bind FormatToken.run?) = some runs ∧
      List.Forall₂ Run.IsFieldOf runs fields := by
  induction tokens generalizing i fields with
  | nil =>
    cases h
    exact ⟨[], rfl, .nil⟩
  | cons token tokens ih =>
    obtain ⟨f, fs, rfl, hf, hfs⟩ := tokenFields_cons_ok h
    obtain ⟨run, hrun, hfield⟩ := isFieldOf_of_tokenField hf
    obtain ⟨runs, hruns, hfields⟩ := ih hfs
    exact ⟨run :: runs, by simp [hrun, hruns], .cons hfield hfields⟩

end Tokens

theorem Run.IsFieldOf.literal {run : Run} {f : Field} (h : run.IsFieldOf f) {r : Repetition}
    (hr : f.repetition = some r) :
    run.count ≠ 1 ∧ r = ⟨.count, literalCount run.count⟩ := by
  rw [h.repetition] at hr
  split at hr
  · cases hr
  · rename_i hcount
    exact ⟨hcount, (Option.some.inj hr).symm⟩

end Schema

namespace Codec

open Schema (Run blockWidth blockValues)

variable {c : Codec} {run : Run} {f : Field}

theorem holds_scalar (h : run.IsFieldOf f) (scope : Scope) {s : Scalar}
    (hs : s.kind = run.primitive) : f.Holds scope (.scalar s) := by
  refine .scalar ?_ (by rw [h.kind, hs])
  intro cond hcond
  rw [h.condition] at hcond
  cases hcond

/-- Enough bytes for some scalars of one kind spell the list of them. -/
theorem spells_scalars (p : Primitive) (n : Nat) (bytes : List UInt8)
    (h : n * p.width ≤ bytes.length) :
    Spells (c.itemCells f ((List.range n).map fun i =>
        .scalar (.decode c.schema.order p ((bytes.drop (i * p.width)).take p.width))))
      (bytes.take (n * p.width)) := by
  induction n generalizing bytes with
  | zero => simp [itemCells, Spells]
  | succ n ih =>
    rw [Nat.succ_mul] at h
    -- the other scalars are those of the bytes after the first
    have hshift : ∀ i, (bytes.drop ((i + 1) * p.width)).take p.width =
        ((bytes.drop p.width).drop (i * p.width)).take p.width := by
      intro i
      rw [List.drop_drop, Nat.succ_mul, Nat.add_comm]
    have htake : bytes.take ((n + 1) * p.width) =
        bytes.take p.width ++ (bytes.drop p.width).take (n * p.width) := by
      rw [Nat.succ_mul, Nat.add_comm, List.take_add]
    have hrest := ih (bytes.drop p.width) (by rw [List.length_drop]; omega)
    have hfirst : Spells
        ((Scalar.decode c.schema.order p (bytes.take p.width)).cells c.schema.order)
        (bytes.take p.width) := by
      rw [Scalar.spells_cells_iff, Scalar.kind_decode, List.length_take]
      exact ⟨by omega, rfl⟩
    rw [htake, List.range_succ_eq_map, List.map_cons, List.map_map, itemCells, cells, Nat.zero_mul,
      List.drop_zero]
    refine hfirst.append ?_
    simpa only [Function.comp_def, Nat.succ_eq_add_one, hshift] using hrest

theorem spells_value (f : Field) {bytes : List UInt8} (hbytes : run.width ≤ bytes.length) :
    Spells (c.cells f (run.value c.schema.order bytes)) (bytes.take run.width) := by
  have hscalars := spells_scalars (c := c) (f := f) run.primitive run.count bytes hbytes
  unfold Run.value
  split
  · rename_i hcount
    simpa [Run.width, Run.scalarAt, hcount, cells, itemCells] using hscalars
  · rw [cells]
    exact hscalars

theorem fits_value (h : run.IsFieldOf f) (fr : Frame) (bytes : List UInt8) :
    c.Fits f fr (run.value c.schema.order bytes) := by
  have hkind : ∀ i, (run.scalarAt c.schema.order bytes i).kind = run.primitive :=
    fun i => Scalar.kind_decode _ _ _
  have hrepetition := h.repetition
  unfold Run.value
  split
  · rename_i hcount
    rw [if_pos hcount] at hrepetition
    exact .single hrepetition (holds_scalar h _ (hkind 0))
  · rename_i hcount
    rw [if_neg hcount] at hrepetition
    refine .list hrepetition ?_ ?_ ?_
    · rw [List.length_map, List.length_range]
      exact Schema.evalCount_literalCount h.limit _
    · intro v hv
      obtain ⟨i, _, rfl⟩ := List.mem_map.mp hv
      exact holds_scalar h _ (hkind i)
    · intro _ v hv hnil
      obtain ⟨i, _, rfl⟩ := List.mem_map.mp hv
      have hlength := Scalar.length_cells c.schema.order (run.scalarAt c.schema.order bytes i)
      rw [cells] at hnil
      rw [hnil, hkind] at hlength
      exact absurd hlength.symm (by cases run.primitive <;> decide)

theorem throughout_value (run : Run) (P : Field → Frame → Value → Prop) (context : Option Context)
    (order : ByteOrder) (bytes : List UInt8) : c.Throughout P context (run.value order bytes) := by
  unfold Run.value
  split
  · simp [Throughout]
  · rw [Throughout, throughoutItems_iff]
    intro v hv
    obtain ⟨i, _, rfl⟩ := List.mem_map.mp hv
    simp [Throughout]

/-- The values of a block fit their fields, and the bytes of the block spell them. -/
theorem fits_blockValues {runs : List Run} {fields : List Field}
    (h : List.Forall₂ Run.IsFieldOf runs fields) (t : RecordType) (before : List Value) (fr : Frame)
    {bytes : List UInt8} (hbytes : blockWidth runs ≤ bytes.length) :
    c.ThroughoutSlots c.Fits t fields before fr (blockValues c.schema.order runs bytes) ∧
      Spells (c.slotCells fields (blockValues c.schema.order runs bytes))
        (bytes.take (blockWidth runs)) := by
  induction h generalizing before fr bytes with
  | nil => simp [blockValues, blockWidth, ThroughoutSlots, slotCells, Spells]
  | @cons run f runs fields hf _ ih =>
    have hwidth : blockWidth (run :: runs) = run.width + blockWidth runs := rfl
    rw [hwidth] at hbytes ⊢
    have hrest : blockWidth runs ≤ (bytes.drop run.width).length := by
      rw [List.length_drop]
      omega
    rw [blockValues, ThroughoutSlots, slotCells, List.take_add]
    constructor
    · exact ⟨fits_value hf _ bytes, throughout_value run _ _ _ bytes, (ih _ _ hrest).1⟩
    · exact (spells_value f (by omega)).append (ih before fr hrest).2

/-- A compact format that is accepted is compiled. Its records are blocks of one width, the sum of
what its tokens ask for. Bytes of at least that width start with a record, which holds a single
scalar for each token that asks for one and a list of as many as it asks for else. Fewer bytes are
reported as truncated. The source of each count compiles to the count, and its value is the number
of the token in every scope. -/
theorem decodePrefix_compact {format : String} {s : Schema}
    (hs : Schema.parseCompact format = .ok s) (options : CodecOptions) :
    ∃ runs c, Schema.formatRuns? format = some runs ∧ compile (some s) options = .ok c ∧
      List.Forall₂ (fun run f => ∀ r, f.repetition = some r →
        Expr.compile? r.expr.source = some r.expr ∧
          ∀ scope, r.expr.evalCount scope = .ok run.count) runs s.root.fields ∧
      ∀ data,
        (blockWidth runs ≤ data.length → c.decodePrefix data =
          .ok (⟨s.root, blockValues s.order runs data⟩, blockWidth runs)) ∧
        (data.length < blockWidth runs →
          ∃ e, c.decodePrefix data = .error (.error e) ∧ e.kind = .truncated) := by
  have haccepted : s.Accepted := .inr ⟨format, hs⟩
  have hc := compile_of_fault? haccepted.wellFormed.fault? options
  have hl := linked_of_compile haccepted hc
  obtain ⟨items, hitems, -, hbuild⟩ := Schema.parseCompact_ok hs
  obtain ⟨-, rfl, -⟩ := Schema.build_ok hbuild
  obtain ⟨runs, hruns, hfields⟩ := Schema.isFieldOf_of_tokenFields hitems
  have hdone : ∀ data : List UInt8, blockWidth runs ≤ data.length →
      decodePrefix ⟨s, options⟩ data =
        .ok (⟨s.root, blockValues s.order runs data⟩, blockWidth runs) := by
    intro data hdata
    have hblock := fun fr => fits_blockValues (c := ⟨s, options⟩) hfields s.root [] fr hdata
    have hfits : Throughout ⟨s, options⟩ (Fits ⟨s, options⟩) none
        (Record.toValue ⟨s.root, blockValues s.order runs data⟩) := by
      rw [Record.toValue, Throughout]
      exact ⟨type?_root _, (hblock _).1⟩
    have hread := decodePrefix_of_fits hl rfl hfits (hblock (.start none)).2
      (data.drop (blockWidth runs))
    rwa [List.take_append_drop, List.length_take, Nat.min_eq_left hdata] at hread
  refine ⟨runs, ⟨s, options⟩, hruns, hc, ?_, fun data => ⟨hdone data, ?_⟩⟩
  · refine hfields.imp ?_
    intro run f hf r hr
    obtain ⟨-, rfl⟩ := hf.literal hr
    exact ⟨Schema.compile?_literalCount hf.limit, Schema.evalCount_literalCount hf.limit⟩
  · -- with enough zeros after them the bytes are a record, of which they are a part
    intro hdata
    have hfilled := hdone (data ++ List.replicate (blockWidth runs - data.length) 0)
      (by rw [List.length_append, List.length_replicate]; omega)
    obtain ⟨e, he, hends⟩ := decodePrefix_take hl hfilled hdata
    rw [List.take_left] at he
    exact ⟨e, he, hends.kind⟩

/-- A list of no scalars, and a count of one with a zero before it, which makes no list. -/
theorem decodePrefix_compact_counts :
    ∃ s c, Schema.parseCompact "<H:v 0B 01b:x 2I" = .ok s ∧ compile (some s) .strict = .ok c ∧
      c.decodePrefix [1, 2, 255, 3, 0, 0, 0, 4, 0, 0, 0, 9] = .ok (⟨s.root, [.scalar (.u16 513),
        .list [], .scalar (.i8 (-1)), .list [.scalar (.u32 3), .scalar (.u32 4)]]⟩, 11) ∧
      ∃ e, c.decodePrefix [1, 2, 255, 3, 0, 0, 0, 4, 0, 0] = .error (.error e) ∧
        e.kind = .truncated := by
  refine exists_of_schema (fun c => some c.schema.order) .little (by decide +kernel) ?_
  intro s c hs hc horder
  obtain ⟨runs, c', hruns, hc', -, hread⟩ := decodePrefix_compact hs .strict
  have hformat : Schema.formatRuns? "<H:v 0B 01b:x 2I" =
      some [⟨.u16, 1⟩, ⟨.u8, 0⟩, ⟨.i8, 1⟩, ⟨.u32, 2⟩] := by decide +kernel
  obtain rfl := Option.some.inj (hformat.symm.trans hruns)
  obtain rfl : c' = c := Except.ok.inj (hc'.symm.trans hc)
  obtain rfl : c' = ⟨s, .strict⟩ := compile_ok hc
  have horder : s.order = .little := Option.some.inj horder
  rw [horder] at hread
  exact ⟨(hread [1, 2, 255, 3, 0, 0, 0, 4, 0, 0, 0, 9]).1 (by decide),
    (hread [1, 2, 255, 3, 0, 0, 0, 4, 0, 0]).2 (by decide)⟩

end Codec

end Savefile
