import Savefile.Expr.Datum

/-! # Terms

The abstract form of an expression. A method call is a call whose first argument is the
receiver; the quantifiers and list builders over a collection are terms of their own.
-/
namespace Savefile.Expr

/-- The operators of two operands that evaluate both of them. -/
inductive BinaryOp where
  | add | sub | mul | div | mod
  | lt | le | gt | ge
  | eq | ne
  | member
  deriving DecidableEq

/-- What a term over every element of a collection asks for. -/
inductive Quantifier where
  | all
  | exists
  | existsOne
  deriving DecidableEq

/-- An expression without its layout. -/
inductive Term where
  | literal (d : Datum)
  /-- A variable or the name of a kind; a leading dot is part of the name. -/
  | ident (name : String)
  | select (operand : Term) (field : String)
  /-- Whether the operand has the field. -/
  | test (operand : Term) (field : String)
  | index (operand key : Term)
  | list (items : List Term)
  | map (entries : List (Term × Term))
  | not (operand : Term)
  | neg (operand : Term)
  | binary (op : BinaryOp) (left right : Term)
  | and (left right : Term)
  | or (left right : Term)
  | cond (test yes no : Term)
  | call (function : String) (args : List Term)
  | quantify (q : Quantifier) (range : Term) (name : String) (body : Term)
  /-- The elements that pass the test, each sent through the body. -/
  | collect (range : Term) (name : String) (test body : Term)
  deriving Inhabited

/-- A name without the dot that may stand before it. -/
def withoutDot (name : String) : String :=
  if name.startsWith "." then (name.drop 1).toString else name

namespace Term

/-- The dotted name that the term spells, if it is a name with fields after it. -/
def dottedName? : Term → Option String
  | .ident name => some (withoutDot name)
  | .select t field => t.dottedName?.map fun n => n ++ "." ++ field
  | .index t (.literal (.string field)) => t.dottedName?.map fun n => n ++ "." ++ field
  | _ => none

end Term

end Savefile.Expr
