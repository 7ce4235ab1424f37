import Savefile.Expr.Datum

/-! # Evaluation errors

Why an expression has no value. One cause is worse than the others: a key that cannot be kept
at all ends the whole evaluation, also where the other operand of an `and` or an `or` decides.
-/
namespace Savefile

/-- Why an expression has no value. -/
inductive EvalError where
  | noSuchAttribute
  | noSuchKey (key : String)
  | indexOutOfBounds (index : String)
  | unsupportedIndexKind (kind : String)
  | unsupportedIndexValue (value : String)
  | invalidKey (representation : String)
  | noSuchOverload
  | divisionByZero
  | modulusByZero
  | integerOverflow
  | unsignedOverflow
  | conversion (source target : String)
  | unordered
  | invalidText
  | notIterable (representation : String)
  | unhashableKey
  deriving DecidableEq

namespace EvalError

def message : EvalError → String
  | .noSuchAttribute => "no such attribute"
  | .noSuchKey key => "no such key: " ++ key
  | .indexOutOfBounds index => "index out of bounds: " ++ index
  | .unsupportedIndexKind kind => "unsupported index type '" ++ kind ++ "' in list"
  | .unsupportedIndexValue value => "unsupported index value " ++ value ++ " in list"
  | .invalidKey representation => "invalid qualifier type: " ++ representation
  | .noSuchOverload => "no such overload"
  | .divisionByZero => "division by zero"
  | .modulusByZero => "modulus by zero"
  | .integerOverflow => "integer overflow"
  | .unsignedOverflow => "unsigned integer overflow"
  | .conversion source target =>
    "type conversion error from '" ++ source ++ "' to '" ++ target ++ "'"
  | .unordered => "NaN values cannot be ordered"
  | .invalidText => "invalid UTF-8 in bytes, cannot convert to string"
  | .notIterable representation => "got '" ++ representation ++ "', expected iterable type"
  | .unhashableKey => "internal error: runtime error: hash of unhashable type types.Bytes"

/-- Whether the error ends the whole evaluation. -/
def isFault : EvalError → Bool
  | .unhashableKey => true
  | _ => false

end EvalError

abbrev Evaluation := Except EvalError Datum

end Savefile
