/-! # Errors and faults

A computation without a value stops in one of two ways. It reports an error and goes on from there,
or it is at fault: it breaks off, or never comes to an end, and reports nothing.
-/
namespace Savefile

/-- Why a computation breaks off, or does not end, without a report. -/
inductive Fault where
  /-- An expression is evaluated that was never set. -/
  | unset
  /-- Records nest without end: a record holds itself at its own position. -/
  | tooDeep
  /-- A type is asked for that is not declared. -/
  | undeclared (name : String)
  /-- A record is asked for more values than it has. -/
  | tooFewFields
  deriving DecidableEq

/-- How a computation stops without a value. -/
inductive Stop (ε : Type) where
  /-- It reports an error. -/
  | error (e : ε)
  /-- It reports nothing. -/
  | fault (f : Fault)

namespace Stop

variable {ε δ : Type}

/-- Changes the error, if there is one. -/
def map (f : ε → δ) : Stop ε → Stop δ
  | .error e => .error (f e)
  | .fault f => .fault f

end Stop

end Savefile
