import Savefile.Expr.Arithmetic
import Savefile.Expr.Convert
import Savefile.Expr.Term

/-! # Evaluation

A term has a value in a scope, the association of names with data in which the newest name
wins. Evaluation is a function of the term and the scope alone. So a walk through a keyed collection
takes the keys in a fixed order, that of the members; an expression whose value hangs on another
order has another meaning, in another language.
-/
namespace Savefile

/-- The names an expression can read, newest first. -/
abbrev Scope := List (String × Datum)

namespace Expr

/-- The names of the kinds of data, which stand for themselves. -/
def typeNames : List String :=
  ["bool", "bytes", "double", "dyn", "int", "list", "map", "null_type", "string", "type", "uint"]

/-- The value of a name. -/
def resolve (scope : Scope) (name : String) : Evaluation :=
  let name := withoutDot name
  match scope.lookup name with
  | some d => .ok d
  | none => if typeNames.contains name then .ok (.type name) else .error .noSuchAttribute

/-- Whether the term is a name that no variable has; nothing can be read off it. -/
def isUnbound (scope : Scope) : Term → Bool
  | .ident name => (scope.lookup (withoutDot name)).isNone
  | _ => false

/-- The variable that a whole access path names, dots included. -/
def dottedVariable? (scope : Scope) (path : Term) : Option Datum :=
  path.dottedName?.bind fun name => scope.lookup name

/-- The place in a list that a key stands for. -/
def position (key : Datum) : Except EvalError Int :=
  match key with
  | .int n => .ok n.toInt
  | .double x =>
    match Datum.wholeInt? x with
    | some n => .ok n.toInt
    | none => .error (.unsupportedIndexValue key.showInner)
  | .uint n =>
    if n.toNat < signedLimit then .ok n.toNat else .error (.unsupportedIndexValue key.showInner)
  | _ => .error (.unsupportedIndexKind key.typeName)

def elementAt (items : List Datum) (key : Datum) : Evaluation := do
  let i ← position key
  if 0 ≤ i then
    match items[i.toNat]? with
    | some d => .ok d
    | none => .error (.indexOutOfBounds key.showInner)
  else .error (.indexOutOfBounds key.showInner)

/-- How a value that can be no key is spelled in messages. -/
def keyRepresentation? : Datum → Option String
  | .null => some "<nil>"
  | .bytes _ => some "[]uint8"
  | .list .variable _ => some "[]interface \x7b\x7d"
  | .list .literal _ => some "*types.baseList"
  | .list .joined _ => some "*types.concatList"
  | .object _ => some "map[string]interface \x7b\x7d"
  | .map _ => some "*types.baseMap"
  | .type _ => some "*types.Type"
  | _ => none

def qualify (d key : Datum) : Evaluation :=
  match keyRepresentation? key with
  | some representation => .error (.invalidKey representation)
  | none =>
    match d with
    | .list _ items => elementAt items key
    | _ =>
      match d.member? key with
      | some value => .ok value
      | none => .error (.noSuchKey key.showInner)

def present (d : Datum) (field : String) : Evaluation :=
  match d with
  | .list _ _ => .error (.unsupportedIndexKind "string")
  | _ => .ok (.bool (d.member? (.string field)).isSome)

/-- The conjunction: false decides, else the first failure counts. -/
def conjoin : Evaluation → Evaluation → Evaluation
  | .ok (.bool false), _ => .ok (.bool false)
  | l, r =>
    match l, r with
    | .error e, r =>
      if e.isFault then .error e
      else
        match r with
        | .ok (.bool false) => .ok (.bool false)
        | .error f => if f.isFault then .error f else .error e
        | _ => .error e
    | .ok (.bool _), .ok (.bool b) => .ok (.bool b)
    | .ok (.bool _), .ok _ => .error .noSuchOverload
    | .ok (.bool _), .error e => .error e
    | .ok _, .ok (.bool false) => .ok (.bool false)
    | .ok _, .error e => if e.isFault then .error e else .error .noSuchOverload
    | .ok _, .ok _ => .error .noSuchOverload

/-- Turns a truth value around and leaves all else. -/
def flipped : Evaluation → Evaluation
  | .ok (.bool b) => .ok (.bool !b)
  | e => e

/-- The disjunction: true decides, else the first failure counts. -/
def disjoin (l r : Evaluation) : Evaluation := flipped (conjoin (flipped l) (flipped r))

/-- Both operands, of which the first failure counts. -/
def both (l r : Evaluation) : Except EvalError (Datum × Datum) :=
  match l, r with
  | .ok a, .ok b => .ok (a, b)
  | .ok _, .error e => .error e
  | .error e, .ok _ => .error e
  | .error e, .error f => if f.isFault && !e.isFault then .error f else .error e

/-- The choice by a truth value. -/
def choose (test yes no : Evaluation) : Evaluation :=
  match test with
  | .ok (.bool true) => yes
  | .ok (.bool false) => no
  | .ok _ => .error .noSuchOverload
  | .error e => .error e

/-- The value of an operator. -/
def operate (op : BinaryOp) (a b : Datum) : Evaluation :=
  match op with
  | .add => a.add b
  | .sub => a.sub b
  | .mul => a.mul b
  | .div => a.div b
  | .mod => a.mod b
  | .lt => (a.order b).map fun o => .bool (o == .lt)
  | .le => (a.order b).map fun o => .bool (o != .gt)
  | .gt => (a.order b).map fun o => .bool (o == .gt)
  | .ge => (a.order b).map fun o => .bool (o != .lt)
  | .eq => .ok (.bool (a.equal b))
  | .ne => .ok (.bool !(a.equal b))
  | .member => (a.contains b).map .bool

/-- How a value that cannot be walked through is spelled in messages. -/
def walkRepresentation : Datum → String
  | .null => "types.Null"
  | .bool _ => "types.Bool"
  | .int _ => "types.Int"
  | .uint _ => "types.Uint"
  | .double _ => "types.Double"
  | .string _ => "types.String"
  | .bytes _ => "types.Bytes"
  | .type _ => "*types.Type"
  | _ => ""

/-- The elements of a list, or the keys of a keyed collection, in the order of its members. -/
def walk (d : Datum) : Except EvalError (List Datum) :=
  match d with
  | .list _ items => .ok items
  | .object entries => .ok (entries.map fun e => .string e.1)
  | .map entries => .ok (entries.map Prod.fst)
  | _ => .error (.notIterable (walkRepresentation d))

/-- Whether the body holds of all elements; the first false ends the walk. -/
def holdsOfAll (body : Datum → Evaluation) : Evaluation → List Datum → Evaluation
  | .ok (.bool false), _ => .ok (.bool false)
  | result, [] => result
  | result, d :: ds => holdsOfAll body (conjoin result (body d)) ds

/-- One more, unless something failed before. -/
def countUp (result : Except EvalError Nat) (test : Evaluation) : Except EvalError Nat :=
  match result, test with
  | .error e, .ok (.bool _) => .error e
  | .ok n, .ok (.bool b) => .ok (if b then n + 1 else n)
  | .error e, .ok _ => if e.isFault then .error e else .error .noSuchOverload
  | _, .ok _ => .error .noSuchOverload
  | .error e, .error f => if e.isFault then .error e else .error f
  | _, .error f => .error f

/-- The value of a quantifier over the elements. -/
def quantified (q : Quantifier) (body : Datum → Evaluation) (items : List Datum) : Evaluation :=
  match q with
  | .all => holdsOfAll body (.ok (.bool true)) items
  | .exists => flipped (holdsOfAll (fun d => flipped (body d)) (.ok (.bool true)) items)
  | .existsOne =>
    (items.foldl (fun result d => countUp result (body d)) (.ok 0)).map fun n => .bool (n == 1)

/-- One more result of a list builder: a failed test replaces an earlier failure, and a failed
body does not. The results stand newest first. -/
def collectUp (result : Except EvalError (List Datum)) (test body : Evaluation) :
    Except EvalError (List Datum) :=
  match result with
  | .error e =>
    if e.isFault then .error e
    else
      match test, body with
      | .ok (.bool false), _ => .error e
      | .ok (.bool true), .error f => if f.isFault then .error f else .error e
      | .ok (.bool true), .ok _ => .error e
      | .ok _, _ => .error .noSuchOverload
      | .error f, _ => .error f
  | .ok ds =>
    match test, body with
    | .ok (.bool false), _ => .ok ds
    | .ok (.bool true), .ok d => .ok (d :: ds)
    | .ok (.bool true), .error e => .error e
    | .ok _, _ => .error .noSuchOverload
    | .error e, _ => .error e

/-- The list that a builder makes of the elements. -/
def collected (test body : Datum → Evaluation) (items : List Datum) : Evaluation :=
  (items.foldl (fun result d => collectUp result (test d) (body d)) (.ok [])).map fun ds =>
    .list .literal ds.reverse

/-- One more member of a literal collection; the last value of a key stays, in the place of the
first. -/
def insertMember (entries : List (Datum × Datum)) (k d : Datum) :
    Except EvalError (List (Datum × Datum)) :=
  match k with
  | .bytes _ => .error .unhashableKey
  | _ =>
    if entries.any fun e => e.1.sameKey k then
      .ok (entries.map fun e => if e.1.sameKey k then (e.1, d) else e)
    else .ok (entries ++ [(k, d)])

mutual

/-- The value of a term. -/
def Term.eval : Term → Scope → Evaluation
  | .literal d, _ => .ok d
  | .ident name, scope => resolve scope name
  | .select t field, scope =>
    match dottedVariable? scope (.select t field) with
    | some d => .ok d
    | none =>
      if isUnbound scope t then .error .noSuchAttribute
      else (Term.eval t scope).bind fun d => qualify d (.string field)
  | .test t field, scope =>
    match dottedVariable? scope (.select t field) with
    | some d => .ok d
    | none =>
      if isUnbound scope t then .error .noSuchAttribute
      else (Term.eval t scope).bind fun d => present d field
  | .index t key, scope =>
    match dottedVariable? scope (.index t key) with
    | some d => .ok d
    | none =>
      if isUnbound scope t then .error .noSuchAttribute
      else (Term.eval t scope).bind fun d => (Term.eval key scope).bind (qualify d)
  | .list items, scope => (Term.evalList items scope).map (.list .literal)
  | .map entries, scope => (Term.evalEntries entries scope []).map .map
  | .not t, scope => (Term.eval t scope).bind Datum.not
  | .neg t, scope => (Term.eval t scope).bind Datum.neg
  | .binary op l r, scope =>
    (both (Term.eval l scope) (Term.eval r scope)).bind fun (a, b) => operate op a b
  | .and l r, scope => conjoin (Term.eval l scope) (Term.eval r scope)
  | .or l r, scope => disjoin (Term.eval l scope) (Term.eval r scope)
  | .cond c yes no, scope => choose (Term.eval c scope) (Term.eval yes scope) (Term.eval no scope)
  | .call function args, scope => (Term.evalList args scope).bind (Datum.apply function)
  | .quantify q range name body, scope =>
    (Term.eval range scope).bind fun d => (walk d).bind fun items =>
      quantified q (fun item => Term.eval body ((name, item) :: scope)) items
  | .collect range name passes body, scope =>
    (Term.eval range scope).bind fun d => (walk d).bind fun items =>
      collected (fun item => Term.eval passes ((name, item) :: scope))
        (fun item => Term.eval body ((name, item) :: scope)) items

/-- The values of several terms, in order. -/
def Term.evalList : List Term → Scope → Except EvalError (List Datum)
  | [], _ => .ok []
  | t :: ts, scope =>
    (Term.eval t scope).bind fun d => (Term.evalList ts scope).map fun ds => d :: ds

/-- The members of a literal collection, after those already there. -/
def Term.evalEntries : List (Term × Term) → Scope → List (Datum × Datum) →
    Except EvalError (List (Datum × Datum))
  | [], _, entries => .ok entries
  | (k, t) :: rest, scope, entries =>
    (Term.eval k scope).bind fun key => (Term.eval t scope).bind fun d =>
      (insertMember entries key d).bind (Term.evalEntries rest scope)

end

end Expr

end Savefile
