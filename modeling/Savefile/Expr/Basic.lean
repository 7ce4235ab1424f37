import Savefile.Expr.Eval
import Savefile.Expr.Grammar
import Savefile.Fault
import Savefile.Text.Quoted

/-! # Expressions

An expression is a text together with what it means, which is for a language to say. A condition
asks it for a truth value and a repetition for a count. To evaluate an expression that was never set
is a fault.

All that is read or written with expressions depends on their meaning alone, and holds for any
language. The library has one of its own.
-/
namespace Savefile

namespace Expr

/-- What an expression means: its value in each scope. -/
abbrev Meaning := Scope → Evaluation

end Expr

/-- A language of expressions: the meaning of each text that is one. -/
class Language where
  meaning? : String → Option Expr.Meaning

/-- The library's own language: terms, and their evaluation. -/
instance Language.own : Language := ⟨fun source => (Expr.Term.parse? source).map Expr.Term.eval⟩

/-- An expression of a schema. Without a meaning it was never set. -/
structure Expr where
  source : String
  meaning : Option Expr.Meaning

/-- Why an expression does not serve its purpose. -/
inductive ExprError where
  | failed (source : String) (cause : EvalError)
  | notBool (source : String) (value : Datum)
  | notInteger (source : String) (value : Datum)
  | negative (source : String) (value : Int)
  | tooLarge (source : String) (value : Nat)

/-- The text of the error. -/
def ExprError.message : ExprError → String
  | .failed source cause => "evaluating " ++ Text.quoted source ++ ": " ++ cause.message
  | .notBool source d =>
    "condition " ++ Text.quoted source ++ " evaluated to " ++ d.rendered ++ " ("
      ++ d.representation ++ "), want bool"
  | .notInteger source d =>
    "count " ++ Text.quoted source ++ " evaluated to " ++ d.rendered ++ " ("
      ++ d.representation ++ "), want integer"
  | .negative source n =>
    "count " ++ Text.quoted source ++ " evaluated to negative value " ++ toString n
  | .tooLarge source n =>
    "count " ++ Text.quoted source ++ " value " ++ toString n ++ " out of range"

namespace Expr

/-- An expression that was never set. -/
def unset : Expr := ⟨"", none⟩

/-- The expression that a text spells in a language. -/
def compile? [Language] (source : String) : Option Expr :=
  (Language.meaning? source).map fun m => ⟨source, some m⟩

/-- The value of an expression. -/
def eval (e : Expr) (scope : Scope) : Except (Stop ExprError) Datum :=
  match e.meaning with
  | none => .error (.fault .unset)
  | some meaning =>
    match meaning scope with
    | .ok d => .ok d
    | .error cause => .error (.error (.failed e.source cause))

/-- The truth value of a condition. -/
def evalBool (e : Expr) (scope : Scope) : Except (Stop ExprError) Bool :=
  (e.eval scope).bind fun d =>
    match d with
    | .bool b => .ok b
    | d => .error (.error (.notBool e.source d))

/-- The first number that is no count. -/
def countLimit : Nat := signedLimit

/-- The count that an integer of either kind stands for. -/
def countOf (source : String) (d : Datum) : Except (Stop ExprError) Nat :=
  match d with
  | .int n =>
    if n.toInt < 0 then .error (.error (.negative source n.toInt)) else .ok n.toInt.toNat
  | .uint n =>
    if n.toNat < countLimit then .ok n.toNat else .error (.error (.tooLarge source n.toNat))
  | d => .error (.error (.notInteger source d))

/-- The count of a repetition. -/
def evalCount (e : Expr) (scope : Scope) : Except (Stop ExprError) Nat :=
  (e.eval scope).bind (countOf e.source)

end Expr

end Savefile
