/-! # Passes

A pass over a record ends in a value or in a failure, and in both cases in a state: what was
reported and moved before a failure stays.
-/
namespace Savefile

/-- How a pass ends. -/
inductive Pass (σ ε α : Type) where
  | done (value : α) (state : σ)
  | failed (error : ε) (state : σ)

namespace Pass

variable {σ ε α β : Type}

/-- The state at the end. -/
def state : Pass σ ε α → σ
  | .done _ s => s
  | .failed _ s => s

/-- The value or the error. -/
def result : Pass σ ε α → Except ε α
  | .done a _ => .ok a
  | .failed e _ => .error e

/-- Changes the value. -/
def map (f : α → β) : Pass σ ε α → Pass σ ε β
  | .done a s => .done (f a) s
  | .failed e s => .failed e s

end Pass

end Savefile
