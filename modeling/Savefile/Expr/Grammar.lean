import Savefile.Decimal.Reading
import Savefile.Expr.Term
import Savefile.Expr.Token

/-! # Reading terms

From the weakest binding to the strongest: a choice, or, and, comparisons, sums, products, sign
and negation, then member access, calls and indexing. The comparisons stand on one level and
group to the left. How deep each of the four repeating levels may nest is limited.
-/
namespace Savefile.Expr

/-- Reads something off the front of the tokens. -/
abbrev Reader (α : Type) := List Token → Option (α × List Token)

/-- How much deeper the levels below a whole expression may still nest. -/
structure Allowance where
  relation : Nat
  arith : Nat
  member : Nat

/-- The deepest nesting of each level. -/
def nestingLimit : Nat := 250

/-- The names that no variable or function may have. -/
def reservedNames : List String :=
  ["as", "break", "const", "continue", "else", "for", "function", "if", "import", "let", "loop",
   "package", "namespace", "return", "var", "void", "while"]

/-- The functions of exactly one argument. -/
def unaryFunctions : List String := ["size", "type", "dyn"]

/-- The functions of exactly two arguments. -/
def binaryFunctions : List String := ["contains", "startsWith", "endsWith", "matches"]

/-- The functions that choose by the kinds of their arguments, however many there are. -/
def openFunctions : List String :=
  ["int", "uint", "double", "string", "bytes", "bool", "duration", "timestamp", "getDate",
   "getDayOfMonth", "getDayOfWeek", "getDayOfYear", "getFullYear", "getHours", "getMilliseconds",
   "getMinutes", "getMonth", "getSeconds"]

/-- Whether a function may be called with that many arguments. Of an unknown function only the
call without any argument is refused. -/
def arityAllowed (function : String) (n : Nat) : Bool :=
  if unaryFunctions.contains function then n == 1
  else if binaryFunctions.contains function then n == 2
  else if openFunctions.contains function then true
  else n != 0

/-- A call, unless the function cannot take that many arguments. -/
def callTerm? (function : String) (args : List Term) : Option Term :=
  if arityAllowed function args.length then some (.call function args) else none

/-- A call by name alone; `has` asks for the presence of a field. -/
def globalCall? (function : String) (args : List Term) : Option Term :=
  match function, args with
  | "has", [.select t field] => some (.test t field)
  | "has", [.test t field] => some (.test t field)
  | "has", [_] => none
  | _, _ => callTerm? (withoutDot function) args

/-- The variable that a quantifier binds. -/
def boundName? : Term → Option String
  | .ident name => some name
  | _ => none

/-- A call on a receiver, which may be a quantifier or a list builder. -/
def memberCall? (receiver : Term) (function : String) (args : List Term) : Option Term :=
  match function, args with
  | "all", [x, body] => (boundName? x).map fun name => .quantify .all receiver name body
  | "exists", [x, body] => (boundName? x).map fun name => .quantify .exists receiver name body
  | "exists_one", [x, body] =>
    (boundName? x).map fun name => .quantify .existsOne receiver name body
  | "map", [x, body] =>
    (boundName? x).map fun name => .collect receiver name (.literal (.bool true)) body
  | "map", [x, test, body] => (boundName? x).map fun name => .collect receiver name test body
  | "filter", [x, test] => (boundName? x).map fun name => .collect receiver name test x
  | _, _ => callTerm? function (receiver :: args)

/-- Field access; after a presence test it asks for the presence of the field again. -/
def selectTerm (operand : Term) (field : String) : Term :=
  match operand with
  | .test _ _ => .test operand field
  | _ => .select operand field

/-- Indexing; the literals that can be no key are refused, and a presence test takes only a
literal key. -/
def indexTerm? (operand key : Term) : Option Term :=
  match operand, key with
  | _, .literal .null => none
  | _, .literal (.bytes _) => none
  | .test _ _, .literal (.string field) => some (.test operand field)
  | .test _ _, .literal _ => some (.test operand "")
  | .test _ _, _ => none
  | _, _ => some (.index operand key)

/-- A signed literal in the range of its kind. -/
def intLiteral? (negative : Bool) (base : Nat) (digits : List Char) : Option Term :=
  let n := digitsIn base digits
  if negative then
    if n ≤ signedLimit then some (.literal (.int (Int64.ofInt (-(n : Int))))) else none
  else if n < signedLimit then some (.literal (.int (Int64.ofInt n))) else none

/-- An unsigned literal in the range of its kind. -/
def uintLiteral? (base : Nat) (digits : List Char) : Option Term :=
  let n := digitsIn base digits
  if n < unsignedLimit then some (.literal (.uint n.toUInt64)) else none

/-- A double literal in the range of its kind. -/
def floatLiteral? (negative : Bool) (text : List Char) : Option Term :=
  match Decimal.readFloat .double (if negative then '-' :: text else text) with
  | .ok bits => some (.literal (.double (Float.ofBits bits.toUInt64)))
  | .error _ => none

/-- Items between commas up to the closing mark; `trailing` allows a comma before it. -/
def itemsUntil {α : Type} (close : String) (trailing : Bool) (item : Reader α) :
    Nat → Reader (List α)
  | 0, _ => none
  | fuel + 1, ts => do
    let (x, rest) ← item ts
    match rest with
    | .mark m :: rest =>
      if m == close then some ([x], rest)
      else if m == "," then
        if trailing && rest.head? == some (.mark close) then some ([x], rest.drop 1)
        else (itemsUntil close trailing item fuel rest).map fun (xs, r) => (x :: xs, r)
      else none
    | _ => none

/-- The arguments of a call, after its opening bracket. -/
def arguments (expr : Reader Term) : Reader (List Term)
  | .mark ")" :: rest => some ([], rest)
  | ts => itemsUntil ")" false expr ts.length ts

/-- The items of a literal collection, after its opening bracket. -/
def collection {α : Type} (close : String) (item : Reader α) : Reader (List α) := fun ts =>
  if ts.head? == some (.mark close) then some ([], ts.drop 1)
  else if ts.take 2 == [.mark ",", .mark close] then some ([], ts.drop 2)
  else itemsUntil close true item ts.length ts

/-- A key, a colon and a value. -/
def entry (expr : Reader Term) : Reader (Term × Term) := fun ts => do
  let (k, rest) ← expr ts
  match rest with
  | .mark ":" :: rest =>
    let (v, rest) ← expr rest
    some ((k, v), rest)
  | _ => none

/-- A name, or a call by name alone, after the dot that may stand before it. -/
def named (dot : String) (expr : Reader Term) (name : String) : Reader Term := fun ts =>
  if reservedNames.contains name then none
  else
    match ts with
    | .mark "(" :: rest => do
      let (args, rest) ← arguments expr rest
      some (← globalCall? (dot ++ name) args, rest)
    | _ => some (.ident (dot ++ name), ts)

/-- A literal, a name, a collection or a bracketed expression. -/
def primary (expr : Reader Term) : Reader Term
  | .ident name :: ts => named "" expr name ts
  | .mark "." :: .ident name :: ts => named "." expr name ts
  | .mark "(" :: ts => do
    let (t, rest) ← expr ts
    match rest with
    | .mark ")" :: rest => some (t, rest)
    | _ => none
  | .mark "[" :: ts => (collection "]" expr ts).map fun (items, rest) => (.list items, rest)
  | .mark "\x7b" :: ts =>
    (collection "\x7d" (entry expr) ts).map fun (entries, rest) => (.map entries, rest)
  | .mark "-" :: .int base digits :: ts => (intLiteral? true base digits).map fun t => (t, ts)
  | .int base digits :: ts => (intLiteral? false base digits).map fun t => (t, ts)
  | .uint base digits :: ts => (uintLiteral? base digits).map fun t => (t, ts)
  | .mark "-" :: .float text :: ts => (floatLiteral? true text).map fun t => (t, ts)
  | .float text :: ts => (floatLiteral? false text).map fun t => (t, ts)
  | .string s :: ts => some (.literal (.string s), ts)
  | .bytes bs :: ts => some (.literal (.bytes bs), ts)
  | .keyword "true" :: ts => some (.literal (.bool true), ts)
  | .keyword "false" :: ts => some (.literal (.bool false), ts)
  | .keyword "null" :: ts => some (.literal .null, ts)
  | _ => none

/-- Field access, calls and indexing after a primary term, each of which uses up some of the
allowance of the term. -/
def memberTail (expr : Allowance → Reader Term) : Nat → Allowance → Term → Reader Term
  | 0, _, t, ts => some (t, ts)
  | fuel + 1, a, t, ts =>
    match ts with
    | .mark "." :: .ident field :: rest =>
      if a.member = 0 then none
      else
        let a := { a with member := a.member - 1 }
        match rest with
        | .mark "(" :: rest => do
          let (args, rest) ← arguments (expr a) rest
          memberTail expr fuel a (← memberCall? t field args) rest
        | _ => memberTail expr fuel a (selectTerm t field) rest
    | .mark "[" :: rest =>
      if a.member = 0 then none
      else do
        let a := { a with member := a.member - 1 }
        let (key, rest) ← expr a rest
        match rest with
        | .mark "]" :: rest => memberTail expr fuel a (← indexTerm? t key) rest
        | _ => none
    | _ => some (t, ts)

/-- A primary term with whatever is accessed of it. -/
def member (expr : Allowance → Reader Term) (a : Allowance) : Reader Term := fun ts =>
  if a.member = 0 then none
  else do
    let a := { a with member := a.member - 1 }
    let (t, rest) ← primary (expr a) ts
    memberTail expr rest.length a t rest

/-- How many of the given mark the tokens start with. -/
def countMarks (m : String) (ts : List Token) : Nat := (ts.takeWhile (· == .mark m)).length

def startsNumber : List Token → Bool
  | .int _ _ :: _ | .float _ :: _ => true
  | _ => false

/-- Sign and negation, an even number of which cancels. A lone minus right before a number
belongs to the number. -/
def unary (expr : Allowance → Reader Term) (a : Allowance) : Reader Term := fun ts =>
  let bangs := countMarks "!" ts
  let minuses := countMarks "-" ts
  if bangs != 0 then
    (member expr a (ts.drop bangs)).map fun (t, rest) =>
      (if bangs % 2 == 0 then t else .not t, rest)
  else if minuses == 0 || (minuses == 1 && startsNumber (ts.drop 1)) then member expr a ts
  else
    (member expr a (ts.drop minuses)).map fun (t, rest) =>
      (if minuses % 2 == 0 then t else .neg t, rest)

/-- An operator that may come next: how it joins its operands and how its right one is read. -/
abbrev OperatorChoice := Token → Option (BinaryOp × (Nat → Reader Term))

/-- Repeats an operator with its right operand, grouping to the left. Each repetition uses up
some of the allowance, which the right operand shares. -/
def leftChain (choice : OperatorChoice) : Nat → Nat → Term → Reader Term
  | 0, _, t, ts => some (t, ts)
  | _ + 1, _, t, [] => some (t, [])
  | fuel + 1, allowed, t, token :: rest =>
    match choice token with
    | none => some (t, token :: rest)
    | some (op, right) =>
      if allowed = 0 then none
      else do
        let (u, rest) ← right (allowed - 1) rest
        leftChain choice fuel (allowed - 1) (.binary op t u) rest

/-- One level of arithmetic: an operand, then the operators of that level. -/
def arithLevel (expr : Allowance → Reader Term) (choice : Allowance → OperatorChoice)
    (a : Allowance) : Reader Term := fun ts =>
  if a.arith = 0 then none
  else do
    let (t, rest) ← unary expr { a with arith := a.arith - 1 } ts
    leftChain (choice a) rest.length (a.arith - 1) t rest

/-- The operators of products. -/
def productOp? : Token → Option BinaryOp
  | .mark "*" => some .mul
  | .mark "/" => some .div
  | .mark "%" => some .mod
  | _ => none

/-- The operators of sums. -/
def sumOp? : Token → Option BinaryOp
  | .mark "+" => some .add
  | .mark "-" => some .sub
  | _ => none

/-- An operand of a product. -/
def factor (expr : Allowance → Reader Term) : Allowance → Reader Term :=
  arithLevel expr fun _ _ => none

def product (expr : Allowance → Reader Term) : Allowance → Reader Term :=
  arithLevel expr fun a token =>
    (productOp? token).map fun op => (op, fun n => factor expr { a with arith := n })

/-- A sum of products. -/
def sum (expr : Allowance → Reader Term) : Allowance → Reader Term :=
  arithLevel expr fun a token =>
    match productOp? token with
    | some op => some (op, fun n => factor expr { a with arith := n })
    | none => (sumOp? token).map fun op => (op, fun n => product expr { a with arith := n })

/-- The comparisons. -/
def relationOp? : Token → Option BinaryOp
  | .mark "<" => some .lt
  | .mark "<=" => some .le
  | .mark ">" => some .gt
  | .mark ">=" => some .ge
  | .mark "==" => some .eq
  | .mark "!=" => some .ne
  | .keyword "in" => some .member
  | _ => none

/-- An operand of a comparison. -/
def compared (expr : Allowance → Reader Term) (a : Allowance) : Reader Term := fun ts =>
  if a.relation = 0 then none else sum expr { a with relation := a.relation - 1 } ts

/-- Comparisons. -/
def relation (expr : Allowance → Reader Term) (a : Allowance) : Reader Term := fun ts => do
  let (t, rest) ← compared expr a ts
  let choice := fun token =>
    (relationOp? token).map fun op => (op, fun n => compared expr { a with relation := n })
  leftChain choice rest.length (a.relation - 1) t rest

/-- One or more operands with the given mark between them. -/
def separated (m : String) (join : Term → Term → Term) (operand : Reader Term) :
    Nat → Term → Reader Term
  | 0, t, ts => some (t, ts)
  | fuel + 1, t, ts =>
    if ts.head? == some (.mark m) then do
      let (u, rest) ← operand (ts.drop 1)
      separated m join operand fuel (join t u) rest
    else some (t, ts)

/-- Comparisons joined by and. -/
def conjunction (expr : Allowance → Reader Term) (a : Allowance) : Reader Term := fun ts => do
  let (t, rest) ← relation expr a ts
  separated "&&" .and (relation expr a) rest.length t rest

/-- Conjunctions joined by or. -/
def disjunction (expr : Allowance → Reader Term) (a : Allowance) : Reader Term := fun ts => do
  let (t, rest) ← conjunction expr a ts
  separated "||" .or (conjunction expr a) rest.length t rest

/-- A whole expression, in which expressions nest at most as deep as the first argument. -/
def expression : Nat → Allowance → Reader Term
  | 0, _, _ => none
  | depth + 1, a, ts => do
    let (t, rest) ← disjunction (expression depth) a ts
    match rest with
    | .mark "?" :: rest =>
      let (yes, rest) ← disjunction (expression depth) a rest
      match rest with
      | .mark ":" :: rest =>
        let (no, rest) ← expression depth a rest
        some (.cond t yes no, rest)
      | _ => none
    | _ => some (t, rest)

/-- The term that a text spells, if it spells one and nothing else. -/
def Term.parse? (source : String) : Option Term := do
  let ts ← tokens? source
  let limits : Allowance := ⟨nestingLimit, nestingLimit, nestingLimit⟩
  match expression nestingLimit limits ts with
  | some (t, []) => some t
  | _ => none

end Savefile.Expr
