import Savefile.Codec.Context
import Savefile.Codec.Error
import Savefile.Proofs.Members

/-!
# Values as expressions reach them

Expressions see the whole numbers of all widths as integers of 64 bits, and records and lists as
collections that are built alike. So what they reach by naming fields and elements one after the other
is the value that stands there, and a whole number that is reached as a count is that count, or none
at all.
-/
namespace Savefile

/-- The whole number that a datum is, if it is one. -/
def Datum.toInt? : Datum → Option Int
  | .int n => some n.toInt
  | .uint n => some n.toNat
  | _ => none

namespace Scalar

variable {x : Scalar} {n : Int}

theorem toInt?_intDatum (hlow : -signedLimit ≤ n) (hhigh : n < unsignedLimit) :
    (intDatum n).toInt? = some n := by
  unfold intDatum
  split
  · rename_i hlt
    have hsigned : (Int64.ofInt n).toInt = n := Int64.toInt_ofInt_of_le hlow hlt
    rw [Datum.toInt?, hsigned]
  · rename_i hge
    have hnonneg : (n.toNat : Int) = n := by omega
    have hsmall : n.toNat < unsignedLimit := by omega
    have hunsigned : n.toNat.toUInt64.toNat = n.toNat := UInt64.toNat_ofNat_of_lt' hsmall
    rw [Datum.toInt?, hunsigned, hnonneg]

/-- The scalars of all kinds but three are whole numbers. -/
theorem exists_toInt? (hsingle : x.kind ≠ .f32) (hdouble : x.kind ≠ .f64) (hbool : x.kind ≠ .bool) :
    ∃ n, x.toInt? = some n := by
  cases x with
  | f32 => exact absurd rfl hsingle
  | f64 => exact absurd rfl hdouble
  | bool => exact absurd rfl hbool
  | _ => exact ⟨_, rfl⟩

theorem toInt?_bounds (h : x.toInt? = some n) : -signedLimit ≤ n ∧ n < unsignedLimit := by
  have hsigned : (signedLimit : Int) = 0x8000000000000000 := rfl
  have hunsigned : (unsignedLimit : Int) = 0x10000000000000000 := rfl
  cases x with
  | u8 k | u16 k | u32 k | u64 k =>
    cases h
    have := k.toNat_lt
    omega
  | i8 k | i16 k | i32 k | i64 k =>
    cases h
    have := k.le_toInt
    have := k.toInt_lt
    omega
  | f32 | f64 | bool => cases h

theorem toDatum_of_toInt? (h : x.toInt? = some n) : x.toDatum = intDatum n := by
  cases x with
  | f32 | f64 | bool => cases h
  | _ =>
    cases h
    rfl

/-- Expressions see a whole number as the same number. -/
theorem toInt?_toDatum (h : x.toInt? = some n) : x.toDatum.toInt? = some n := by
  obtain ⟨hlow, hhigh⟩ := toInt?_bounds h
  rw [toDatum_of_toInt? h, toInt?_intDatum hlow hhigh]

end Scalar

/-! ## Parts of values -/

namespace Value

/-- The value of the last of several fields that has the identifier. -/
def fieldOf? (ids : List String) (values : List Value) (id : String) : Option Value :=
  (ids.zip values).reverse.lookup id

/-- A field of a record, or an element of a list. -/
def part? (v : Value) (step : PathStep) : Option Value :=
  match v, step with
  | .record t slots, .field id => fieldOf? (t.fields.map (·.id)) slots id
  | .list items, .index i => items[i]?
  | _, _ => none

/-- The value that a path leads to, one part after the other. -/
def at? (v : Value) (path : List PathStep) : Option Value := path.foldlM part? v

theorem at?_cons (v : Value) (step : PathStep) (path : List PathStep) :
    v.at? (step :: path) = (v.part? step).bind fun part => part.at? path := rfl

end Value

namespace Datum

/-- A member of a collection, or an element of a list. -/
def part? (d : Datum) (step : PathStep) : Option Datum :=
  match d, step with
  | .object entries, .field id => entries.lookup id
  | .list _ items, .index i => items[i]?
  | _, _ => none

def at? (d : Datum) (path : List PathStep) : Option Datum := path.foldlM part? d

theorem at?_cons (d : Datum) (step : PathStep) (path : List PathStep) :
    d.at? (step :: path) = (d.part? step).bind fun part => part.at? path := rfl

theorem at?_append (d : Datum) (path rest : List PathStep) :
    d.at? (path ++ rest) = (d.at? path).bind fun part => part.at? rest := List.foldlM_append

/-- The last step of a path is made from what the steps before lead to. -/
theorem exists_of_at?_append {d part : Datum} {path : List PathStep} {step : PathStep}
    (h : d.at? (path ++ [step]) = some part) :
    ∃ inner, d.at? path = some inner ∧ inner.part? step = some part := by
  rw [at?_append] at h
  obtain ⟨inner, hinner, hlast⟩ := Option.bind_eq_some_iff.mp h
  rw [at?_cons] at hlast
  obtain ⟨last, hlast, heq⟩ := Option.bind_eq_some_iff.mp hlast
  cases heq
  exact ⟨inner, hinner, hlast⟩

end Datum

theorem Scalar.part?_toDatum (x : Scalar) (step : PathStep) : x.toDatum.part? step = none := by
  have hint : ∀ n, (intDatum n).part? step = none := by
    intro n
    unfold intDatum
    split <;> rfl
  cases x with
  | f32 | f64 | bool => rfl
  | _ => exact hint _

namespace Value

theorem itemData_eq_map (vs : List Value) : itemData vs = vs.map toDatum := by
  induction vs with
  | nil => rfl
  | cons v vs ih => rw [itemData, ih, List.map_cons]

/-- Of a collection of fields the last one with an identifier is seen. -/
theorem lookup_fields (ids : List String) (values : List Value) (id : String) :
    (collectMembers (ids.zip (itemData values))).lookup id = (fieldOf? ids values id).map toDatum := by
  have hzip : ids.zip (itemData values) = (ids.zip values).map fun p => (p.1, p.2.toDatum) := by
    rw [itemData_eq_map, List.zip_map_right]
    rfl
  rw [lookup_collectMembers, hzip, fieldOf?, ← List.map_reverse]
  induction (ids.zip values).reverse with
  | nil => rfl
  | cons pair pairs ih =>
    rw [List.map_cons, lookup_cons_ite, lookup_cons_ite, ih]
    split <;> rfl

/-- Records and lists keep their parts. -/
theorem part?_toDatum (v : Value) (step : PathStep) :
    v.toDatum.part? step = (v.part? step).map toDatum := by
  cases v with
  | null => rfl
  | foreign _ _ => rfl
  | scalar x => exact x.part?_toDatum step
  | list items =>
    cases step with
    | field id => rfl
    | index i => simp [toDatum, Datum.part?, part?, itemData_eq_map]
  | record t slots =>
    cases step with
    | field id => exact lookup_fields _ slots id
    | index i => rfl

theorem at?_toDatum (v : Value) (path : List PathStep) :
    v.toDatum.at? path = (v.at? path).map toDatum := by
  induction path generalizing v with
  | nil => rfl
  | cons step path ih =>
    rw [Datum.at?_cons, part?_toDatum, at?_cons]
    cases v.part? step with
    | none => rfl
    | some part => exact ih part

end Value

/-! ## Terms that reach a part -/

namespace Expr

/-- The term names a variable and then parts of it, one inside the other. -/
inductive Accesses (scope : Scope) : Term → String → List PathStep → Prop
  | name (spelled : String) : Accesses scope (.ident spelled) (withoutDot spelled) []
  | member {t : Term} {x : String} {path : List PathStep} (id : String) :
      Accesses scope t x path → Accesses scope (.select t id) x (path ++ [.field id])
  | key {t key : Term} {x id : String} {path : List PathStep} :
      Accesses scope t x path → key.eval scope = .ok (.string id) →
      Accesses scope (.index t key) x (path ++ [.field id])
  | element {t key : Term} {x : String} {path : List PathStep} {d : Datum} {i : Nat} :
      Accesses scope t x path → key.eval scope = .ok d → position d = .ok i →
      Accesses scope (.index t key) x (path ++ [.index i])

variable {scope : Scope} {t key : Term} {x : String} {path : List PathStep} {d part : Datum}

theorem qualify_string {id : String} (h : d.part? (.field id) = some part) :
    qualify d (.string id) = .ok part := by
  cases d with
  | object entries =>
    have hlookup : entries.lookup id = some part := h
    simp [qualify, keyRepresentation?, Datum.member?, hlookup]
  | _ => cases h

theorem qualify_position {k : Datum} {i : Nat} (hk : position k = .ok i)
    (h : d.part? (.index i) = some part) : qualify d k = .ok part := by
  have hkey : keyRepresentation? k = none := by
    cases k with
    | int | uint | double => rfl
    | _ => cases hk
  cases d with
  | list origin items =>
    have hitem : items[i]? = some part := h
    simp only [qualify, hkey, elementAt, hk]
    simp [bind, Except.bind, hitem]
  | _ => cases h

/-- The name that a term of more than a name spells has a dot in it. -/
theorem mem_dottedName? {name : String} (ht : ∀ x, t ≠ .ident x) (h : t.dottedName? = some name) :
    '.' ∈ name.toList := by
  unfold Term.dottedName? at h
  split at h
  · rename_i x
    exact absurd rfl (ht x)
  · obtain ⟨n, -, rfl⟩ := Option.map_eq_some_iff.mp h
    simp
  · obtain ⟨n, -, rfl⟩ := Option.map_eq_some_iff.mp h
    simp
  · cases h

/-- Where no variable has a dot in its name, none is meant by a term of more than a name. -/
theorem dottedVariable?_eq_none (hscope : ∀ entry ∈ scope, '.' ∉ entry.1.toList)
    (ht : ∀ x, t ≠ .ident x) : dottedVariable? scope t = none := by
  unfold dottedVariable?
  cases hname : t.dottedName? with
  | none => rfl
  | some name =>
    apply List.lookup_eq_none_iff.mpr
    intro entry hentry
    apply bne_iff_ne.mpr
    rintro rfl
    exact hscope entry hentry (mem_dottedName? ht hname)

theorem Accesses.isUnbound_eq_false (h : Accesses scope t x path) (hx : scope.lookup x = some d) :
    isUnbound scope t = false := by
  cases h with
  | name spelled => simp [isUnbound, hx]
  | member | key | element => rfl

/-- A term that names a part has the value of the part. -/
theorem Accesses.eval_eq (hscope : ∀ entry ∈ scope, '.' ∉ entry.1.toList)
    (h : Accesses scope t x path) (hx : scope.lookup x = some d) (hpart : d.at? path = some part) :
    t.eval scope = .ok part := by
  induction h generalizing part with
  | name spelled =>
    cases hpart
    simp [Term.eval, resolve, hx]
  | member id h ih =>
    obtain ⟨inner, hinner, hlast⟩ := Datum.exists_of_at?_append hpart
    rw [Term.eval, dottedVariable?_eq_none hscope (by simp), h.isUnbound_eq_false hx, ih hx hinner]
    exact qualify_string hlast
  | key h hkey ih =>
    obtain ⟨inner, hinner, hlast⟩ := Datum.exists_of_at?_append hpart
    rw [Term.eval, dottedVariable?_eq_none hscope (by simp), h.isUnbound_eq_false hx, ih hx hinner,
      hkey]
    exact qualify_string hlast
  | element h hkey hposition ih =>
    obtain ⟨inner, hinner, hlast⟩ := Datum.exists_of_at?_append hpart
    rw [Term.eval, dottedVariable?_eq_none hscope (by simp), h.isUnbound_eq_false hx, ih hx hinner,
      hkey]
    exact qualify_position hposition hlast

/-! ## Counts -/

variable {e : Expr} {n : Int}

/-- The count that a whole number gives: the number itself, or none. -/
theorem countOf_eq (source : String) (h : d.toInt? = some n) :
    countOf source d =
      if n < 0 then .error (.error (.negative source n))
      else if n < countLimit then .ok n.toNat
      else .error (.error (.tooLarge source n.toNat)) := by
  cases d with
  | int k =>
    cases h
    have hlimit : k.toInt < countLimit := k.toInt_lt
    rw [countOf, if_pos hlimit]
  | uint k =>
    cases h
    have hnonneg : ¬((k.toNat : Int) < 0) := by omega
    rw [countOf, if_neg hnonneg, Int.toNat_natCast]
    simp only [Int.ofNat_lt]
  | _ => cases h

theorem evalCount_eq (he : e.eval scope = .ok d) (h : d.toInt? = some n) :
    e.evalCount scope =
      if n < 0 then .error (.error (.negative e.source n))
      else if n < countLimit then .ok n.toNat
      else .error (.error (.tooLarge e.source n.toNat)) := by
  rw [evalCount, he]
  exact countOf_eq e.source h

end Expr

end Savefile
