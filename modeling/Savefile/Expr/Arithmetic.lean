import Savefile.Expr.Compare

/-! # Arithmetic

Both operands have the same kind. Whole numbers never wrap: a result out of range is an error.
-/
namespace Savefile.Datum

/-- A signed result in range. -/
def intResult (n : Int) : Evaluation :=
  if -(signedLimit : Int) ≤ n && n < signedLimit then .ok (.int (Int64.ofInt n))
  else .error .integerOverflow

/-- An unsigned result in range. -/
def uintResult (n : Int) : Evaluation :=
  if 0 ≤ n && n < unsignedLimit then .ok (.uint n.toNat.toUInt64) else .error .unsignedOverflow

/-- The join of two lists; an empty one leaves the other as it is. -/
def joinLists (o : ListOrigin) (xs : List Datum) (p : ListOrigin) (ys : List Datum) : Datum :=
  if xs.isEmpty then .list p ys
  else if ys.isEmpty then .list o xs
  else .list .joined (xs ++ ys)

/-- The sum of numbers, or two texts or lists one after the other. -/
def add : Datum → Datum → Evaluation
  | .int a, .int b => intResult (a.toInt + b.toInt)
  | .uint a, .uint b => uintResult (a.toNat + b.toNat)
  | .double x, .double y => .ok (.double (x + y))
  | .string s, .string t => .ok (.string (s ++ t))
  | .bytes s, .bytes t => .ok (.bytes (s ++ t))
  | .list o xs, .list p ys => .ok (joinLists o xs p ys)
  | _, _ => .error .noSuchOverload

/-- The difference of two numbers. -/
def sub : Datum → Datum → Evaluation
  | .int a, .int b => intResult (a.toInt - b.toInt)
  | .uint a, .uint b => uintResult (a.toNat - b.toNat)
  | .double x, .double y => .ok (.double (x - y))
  | _, _ => .error .noSuchOverload

/-- The product of two numbers. -/
def mul : Datum → Datum → Evaluation
  | .int a, .int b => intResult (a.toInt * b.toInt)
  | .uint a, .uint b => uintResult (a.toNat * b.toNat)
  | .double x, .double y => .ok (.double (x * y))
  | _, _ => .error .noSuchOverload

/-- The quotient of two numbers, cut off toward zero. -/
def div : Datum → Datum → Evaluation
  | .int a, .int b =>
    if b.toInt = 0 then .error .divisionByZero else intResult (Int.tdiv a.toInt b.toInt)
  | .uint a, .uint b =>
    if b.toNat = 0 then .error .divisionByZero else uintResult (a.toNat / b.toNat : Nat)
  | .double x, .double y => .ok (.double (x / y))
  | _, _ => .error .noSuchOverload

/-- The remainder of two whole numbers, with the sign of the first. It overflows when the
quotient does. -/
def mod : Datum → Datum → Evaluation
  | .int a, .int b =>
    if b.toInt = 0 then .error .modulusByZero
    else if a.toInt = -(signedLimit : Int) && b.toInt = -1 then .error .integerOverflow
    else intResult (Int.tmod a.toInt b.toInt)
  | .uint a, .uint b =>
    if b.toNat = 0 then .error .modulusByZero else uintResult (a.toNat % b.toNat : Nat)
  | _, _ => .error .noSuchOverload

/-- The number with the other sign. -/
def neg : Datum → Evaluation
  | .int a => intResult (-a.toInt)
  | .double x => .ok (.double (-x))
  | _ => .error .noSuchOverload

/-- The other truth value. -/
def not : Datum → Evaluation
  | .bool b => .ok (.bool !b)
  | _ => .error .noSuchOverload

end Savefile.Datum
