import Savefile.Expr.Error

/-! # Equality, order and membership

Numbers compare by value whatever their kind; beside doubles they are first rounded to a
double. Data of different kinds are never equal, and only data of one kind are ordered.
-/
namespace Savefile.Datum

/-- The integer that a double equals, if it lies strictly between the ends of the range. -/
def wholeInt? (x : Float) : Option Int64 :=
  if (-9223372036854775808.0 : Float) < x && x < (9223372036854775808.0 : Float) then
    let n := x.toInt64
    if n.toFloat == x then some n else none
  else none

/-- The unsigned integer that a double equals. -/
def wholeUInt? (x : Float) : Option UInt64 :=
  if (0.0 : Float) ≤ x && x < (18446744073709551616.0 : Float) then
    let n := x.toUInt64
    if n.toFloat == x then some n else none
  else none

/-- The order of two doubles that are numbers. -/
def compareDoubles (x y : Float) : Ordering :=
  if x < y then .lt else if x == y then .eq else .gt

/-- The order of a double and an integer, within the range of integers as doubles. -/
def compareDoubleInt (x : Float) (n : Int64) : Ordering :=
  if x < (-9223372036854775808.0 : Float) then .lt
  else if (9223372036854775808.0 : Float) < x then .gt
  else compareDoubles x n.toFloat

/-- The order of a double and an unsigned integer, within their range as doubles. -/
def compareDoubleUInt (x : Float) (n : UInt64) : Ordering :=
  if x < (0.0 : Float) then .lt
  else if (18446744073709551616.0 : Float) < x then .gt
  else compareDoubles x n.toFloat

/-- The order of two numbers of any kind, if both are numbers that have one. -/
def compareNumbers? : Datum → Datum → Option Ordering
  | .int a, .int b => some (compare a.toInt b.toInt)
  | .uint a, .uint b => some (compare a.toNat b.toNat)
  | .int a, .uint b => some (compare a.toInt (b.toNat : Int))
  | .uint a, .int b => some (compare (a.toNat : Int) b.toInt)
  | .double x, .double y => if x.isNaN || y.isNaN then none else some (compareDoubles x y)
  | .double x, .int n => if x.isNaN then none else some (compareDoubleInt x n)
  | .int n, .double x => if x.isNaN then none else some (compareDoubleInt x n).swap
  | .double x, .uint n => if x.isNaN then none else some (compareDoubleUInt x n)
  | .uint n, .double x => if x.isNaN then none else some (compareDoubleUInt x n).swap
  | _, _ => none

/-- Whether the datum is a double that is not a number. -/
def isNaN : Datum → Bool
  | .double x => x.isNaN
  | _ => false

/-- Whether the datum is a number of some kind. -/
def isNumber : Datum → Bool
  | .int _ | .uint _ | .double _ => true
  | _ => false

def compareBytes : List UInt8 → List UInt8 → Ordering
  | [], [] => .eq
  | [], _ :: _ => .lt
  | _ :: _, [] => .gt
  | a :: as, b :: bs => (compare a.toNat b.toNat).then (compareBytes as bs)

/-- The order of two data. -/
def order (a b : Datum) : Except EvalError Ordering :=
  match a, b with
  | .bool p, .bool q => .ok (compare p.toNat q.toNat)
  | .string s, .string t => .ok (compareOfLessAndEq s t)
  | .bytes s, .bytes t => .ok (compareBytes s t)
  | _, _ =>
    match compareNumbers? a b with
    | some o => .ok o
    | none =>
      if a.isNaN || (a.isNumber && b.isNaN) then .error .unordered else .error .noSuchOverload

/-- Whether two keys are the same key of a collection. -/
def sameKey : Datum → Datum → Bool
  | .null, .null => true
  | .bool a, .bool b => a == b
  | .int a, .int b => a == b
  | .uint a, .uint b => a == b
  | .double a, .double b => a == b
  | .string a, .string b => a == b
  | .type a, .type b => a == b
  | _, _ => false

def valueAt? (key : Datum) : List (Datum × Datum) → Option Datum
  | [] => none
  | (k, d) :: rest => if k.sameKey key then some d else valueAt? key rest

/-- The value under a key or, if there is none, under the equal number of another kind: a double
finds whole numbers, and the two kinds of whole numbers find each other. -/
def find? (key : Datum) (entries : List (Datum × Datum)) : Option Datum :=
  match valueAt? key entries with
  | some d => some d
  | none =>
    match key with
    | .double x =>
      match (wholeInt? x).bind fun n => valueAt? (.int n) entries with
      | some d => some d
      | none => (wholeUInt? x).bind fun n => valueAt? (.uint n) entries
    | .int n => if 0 ≤ n.toInt then valueAt? (.uint n.toUInt64) entries else none
    | .uint n => if n.toNat < signedLimit then valueAt? (.int n.toInt64) entries else none
    | _ => none

/-- The value of a collection's member, if the datum is a collection that has it. -/
def member? (collection key : Datum) : Option Datum :=
  match collection, key with
  | .object entries, .string name => entries.lookup name
  | .map entries, _ => find? key entries
  | _, _ => none

/-- The number of members of a keyed collection. -/
def memberCount? : Datum → Option Nat
  | .object entries => some entries.length
  | .map entries => some entries.length
  | _ => none

mutual

/-- Whether two data are equal. -/
def equal : Datum → Datum → Bool
  | .null, .null => true
  | .bool a, .bool b => a == b
  | .string a, .string b => a == b
  | .bytes a, .bytes b => a == b
  | .type a, .type b => a == b
  | .list _ as, .list _ bs => equalItems as bs
  | .object entries, d =>
    d.memberCount? == some entries.length && equalMembers entries d
  | .map entries, d =>
    d.memberCount? == some entries.length && equalEntries entries d
  | a, b => compareNumbers? a b == some .eq

/-- Whether two lists hold equal data in the same places. -/
def equalItems : List Datum → List Datum → Bool
  | [], [] => true
  | a :: as, b :: bs => a.equal b && equalItems as bs
  | _, _ => false

/-- Whether each named member has an equal one in the collection. -/
def equalMembers : List (String × Datum) → Datum → Bool
  | [], _ => true
  | (k, a) :: rest, d =>
    (match d.member? (.string k) with
      | some b => a.equal b
      | none => false) && equalMembers rest d

/-- Whether each keyed member has an equal one in the collection. -/
def equalEntries : List (Datum × Datum) → Datum → Bool
  | [], _ => true
  | (k, a) :: rest, d =>
    (match d.member? k with
      | some b => a.equal b
      | none => false) && equalEntries rest d

end

/-- Whether a collection holds a value: a list as an element, a keyed one as a key. -/
def contains (d collection : Datum) : Except EvalError Bool :=
  match collection, d with
  | .list _ items, _ => .ok (items.any fun item => d.equal item)
  | .map (_ :: _), .bytes _ => .error .unhashableKey
  | .map entries, _ => .ok (find? d entries).isSome
  | .object entries, .string name => .ok (entries.lookup name).isSome
  | .object _, _ => .ok false
  | _, _ => .error .noSuchOverload

end Savefile.Datum
