import Savefile.Decimal.Spelling
import Savefile.Text.Utf8

/-! # Tokens of expressions

The longest token is taken at each place. White space and comments, which run from two slashes
to the end of the line, separate tokens and mean nothing.
-/
namespace Savefile.Expr

/-- A word of an expression. -/
inductive Token where
  /-- An operator or a bracket. -/
  | mark (text : String)
  /-- One of `in`, `true`, `false` and `null`. -/
  | keyword (text : String)
  | ident (name : String)
  /-- A decimal or hexadecimal number, without a sign. -/
  | int (base : Nat) (digits : List Char)
  | uint (base : Nat) (digits : List Char)
  | float (text : List Char)
  | string (s : String)
  | bytes (bs : List UInt8)
  deriving DecidableEq

/-- Letters, and the underscore. -/
def isIdentStart (c : Char) : Bool := c.isAlpha || c == '_'

/-- Letters, digits, and the underscore. -/
def isIdentRest (c : Char) : Bool := c.isAlphanum || c == '_'

def isHexDigit (c : Char) : Bool := (Decimal.hexValue? c).isSome

/-- The number written by digits of the given base. -/
def digitsIn (base : Nat) (ds : List Char) : Nat :=
  ds.foldl (fun n c => n * base + (Decimal.hexValue? c).getD 0) 0

/-- A piece of a quoted literal: a character as written, or a number given by an escape. -/
inductive Piece where
  | char (c : Char)
  /-- A code point, which text encodes; bytes refuse it unless it is `short`. -/
  | code (n : Nat) (short : Bool)

/-- Exactly `n` hexadecimal digits. -/
def takeHex? (n : Nat) (cs : List Char) : Option (Nat × List Char) :=
  let ds := cs.take n
  if ds.length == n && ds.all isHexDigit then some (digitsIn 16 ds, cs.drop n) else none

/-- What follows a backslash: one escape. -/
def escape? : List Char → Option (Piece × List Char)
  | [] => none
  | c :: cs =>
    match c with
    | 'a' => some (.char '\x07', cs)
    | 'b' => some (.char '\x08', cs)
    | 'f' => some (.char '\x0c', cs)
    | 'n' => some (.char '\n', cs)
    | 'r' => some (.char '\r', cs)
    | 't' => some (.char '\t', cs)
    | 'v' => some (.char '\x0b', cs)
    | '"' | '\'' | '\\' | '?' | '\x60' => some (.char c, cs)
    | 'x' | 'X' => (takeHex? 2 cs).map fun (n, rest) => (.code n true, rest)
    | 'u' => (takeHex? 4 cs).map fun (n, rest) => (.code n false, rest)
    | 'U' => (takeHex? 8 cs).map fun (n, rest) => (.code n false, rest)
    | '0' | '1' | '2' | '3' =>
      match cs with
      | d :: e :: rest =>
        if '0' ≤ d && d ≤ '7' && '0' ≤ e && e ≤ '7' then
          some (.code (digitsIn 8 [c, d, e]) true, rest)
        else none
      | _ => none
    | _ => none

/-- The form of a quoted literal. -/
structure QuoteForm where
  mark : Char
  triple : Bool
  raw : Bool

/-- What is left after the closing quotes, if the text starts with them. -/
def QuoteForm.close? (q : QuoteForm) : List Char → Option (List Char)
  | a :: b :: c :: cs =>
    if q.triple then if a == q.mark && b == q.mark && c == q.mark then some cs else none
    else if a == q.mark then some (b :: c :: cs) else none
  | a :: cs => if !q.triple && a == q.mark then some cs else none
  | [] => none

/-- The pieces of a quoted literal up to its closing quotes. A literal in single quotes stays on
its line, and a line end of any kind inside triple quotes is one line feed. -/
def QuoteForm.body? (q : QuoteForm) : Nat → List Char → Option (List Piece × List Char)
  | 0, _ => none
  | fuel + 1, cs =>
    match q.close? cs with
    | some rest => some ([], rest)
    | none =>
      match cs with
      | [] => none
      | '\\' :: rest =>
        if q.raw then (q.body? fuel rest).map fun (ps, r) => (.char '\\' :: ps, r)
        else do
          let (p, rest) ← escape? rest
          let (ps, r) ← q.body? fuel rest
          some (p :: ps, r)
      | c :: rest =>
        if c == '\n' || c == '\r' then
          if q.triple then
            let rest := match c, rest with
              | '\r', '\n' :: more => more
              | _, more => more
            (q.body? fuel rest).map fun (ps, r) => (.char '\n' :: ps, r)
          else none
        else (q.body? fuel rest).map fun (ps, r) => (.char c :: ps, r)

/-- The character of a code point; a surrogate becomes the replacement character, and a number
beyond the code points is refused, except that the highest half of the 32-bit numbers keeps its
low byte alone. -/
def codeChar? (n : Nat) : Option Char :=
  if n ≤ 0x10ffff then
    some (if 0xd800 ≤ n && n ≤ 0xdfff then Text.replacement else Char.ofNat n)
  else if n < 0x80000000 then none
  else some (if n % 256 < 0x80 then Char.ofNat (n % 256) else Text.replacement)

/-- A piece of a text literal. -/
def Piece.char? : Piece → Option Char
  | .char c => some c
  | .code n _ => codeChar? n

def Piece.bytes? : Piece → Option (List UInt8)
  | .char c => some (String.utf8EncodeChar c)
  | .code n short => if short then some [n.toUInt8] else none

/-- The text of a literal. -/
def piecesText? (ps : List Piece) : Option String := (ps.mapM Piece.char?).map String.ofList

/-- The bytes of a literal. -/
def piecesBytes? (ps : List Piece) : Option (List UInt8) :=
  (ps.mapM Piece.bytes?).map List.flatten

/-- A quoted literal that starts at its opening quotes. -/
def quotedPieces? (raw : Bool) : List Char → Option (List Piece × List Char)
  | [] => none
  | q :: cs =>
    if q == '"' || q == '\'' then
      match cs with
      | a :: b :: rest =>
        if a == q && b == q then (QuoteForm.mk q true raw).body? (cs.length + 1) rest
        else (QuoteForm.mk q false raw).body? (cs.length + 1) cs
      | _ => (QuoteForm.mk q false raw).body? (cs.length + 1) cs
    else none

/-- A text or bytes literal with its letters before the quotes, if one starts here. -/
def quotedToken? (cs : List Char) : Option (Token × List Char) := do
  let isB := fun c => c == 'b' || c == 'B'
  let isR := fun c => c == 'r' || c == 'R'
  let (binary, afterB) := match cs with
    | c :: rest => if isB c then (true, rest) else (false, cs)
    | [] => (false, [])
  let (raw, body) := match afterB with
    | c :: rest => if isR c then (true, rest) else (false, afterB)
    | [] => (false, [])
  let (pieces, rest) ← quotedPieces? raw body
  if binary then some (.bytes (← piecesBytes? pieces), rest)
  else some (.string (← piecesText? pieces), rest)

/-- A mark of an exponent with its digits, if one starts here. -/
def exponentPart (cs : List Char) : List Char × List Char :=
  match cs with
  | e :: rest =>
    if e == 'e' || e == 'E' then
      let (sign, ds) := match rest with
        | '+' :: more => (['+'], more)
        | '-' :: more => (['-'], more)
        | more => ([], more)
      let digits := ds.takeWhile Char.isDigit
      if digits.isEmpty then ([], cs) else (e :: sign ++ digits, ds.dropWhile Char.isDigit)
    else ([], cs)
  | [] => ([], [])

/-- A whole number, marked as unsigned by a letter after it. -/
def wholeToken (base : Nat) (digits rest : List Char) : Token × List Char :=
  match rest with
  | c :: more =>
    if c == 'u' || c == 'U' then (.uint base digits, more) else (.int base digits, rest)
  | [] => (.int base digits, [])

/-- A number that starts with the given text. -/
def numberToken (cs : List Char) : Token × List Char :=
  let hexDigits := match cs with
    | '0' :: 'x' :: rest => rest.takeWhile isHexDigit
    | _ => []
  if !hexDigits.isEmpty then wholeToken 16 hexDigits (cs.drop (2 + hexDigits.length))
  else
    let whole := cs.takeWhile Char.isDigit
    let afterWhole := cs.dropWhile Char.isDigit
    let fraction := match afterWhole with
      | '.' :: rest => rest.takeWhile Char.isDigit
      | _ => []
    let afterFraction :=
      if fraction.isEmpty then afterWhole else afterWhole.drop (1 + fraction.length)
    let (exponent, rest) := exponentPart afterFraction
    if fraction.isEmpty && exponent.isEmpty then wholeToken 10 whole afterWhole
    else if fraction.isEmpty then (.float (whole ++ exponent), rest)
    else (.float (whole ++ '.' :: fraction ++ exponent), rest)

def longMarks : List (Char × Char) :=
  [('=', '='), ('!', '='), ('<', '='), ('>', '='), ('&', '&'), ('|', '|')]

def shortMarks : List Char :=
  ['<', '>', '[', ']', '\x7b', '\x7d', '(', ')', '.', ',', '-', '!', '?', ':', '+', '*', '/', '%']

/-- An operator or a bracket, if one starts here. -/
def markToken? : List Char → Option (Token × List Char)
  | a :: b :: cs =>
    if longMarks.contains (a, b) then some (.mark (String.ofList [a, b]), cs)
    else if shortMarks.contains a then some (.mark (String.ofList [a]), b :: cs)
    else none
  | [a] => if shortMarks.contains a then some (.mark (String.ofList [a]), []) else none
  | [] => none

/-- The words that are no names. -/
def keywords : List String := ["in", "true", "false", "null"]

/-- The token that starts here. -/
def nextToken? (cs : List Char) : Option (Token × List Char) :=
  match quotedToken? cs with
  | some found => some found
  | none =>
    match cs with
    | [] => none
    | c :: rest =>
      if isIdentStart c then
        let name := String.ofList (cs.takeWhile isIdentRest)
        let token := if keywords.contains name then Token.keyword name else Token.ident name
        some (token, cs.dropWhile isIdentRest)
      else if c.isDigit || (c == '.' && (rest.head?.map Char.isDigit).getD false) then
        some (numberToken cs)
      else markToken? cs

/-- White space between tokens. -/
def isBlank (c : Char) : Bool :=
  c == ' ' || c == '\t' || c == '\r' || c == '\n' || c == '\x0c'

/-- The tokens of a text, read with the given fuel. -/
def tokensFrom? : Nat → List Char → Option (List Token)
  | _, [] => some []
  | 0, _ => none
  | fuel + 1, c :: cs =>
    if isBlank c then tokensFrom? fuel cs
    else if c == '/' && cs.head? == some '/' then tokensFrom? fuel (cs.dropWhile (· != '\n'))
    else do
      let (token, rest) ← nextToken? (c :: cs)
      let tokens ← tokensFrom? fuel rest
      some (token :: tokens)

/-- The tokens of an expression, unless some character starts none. -/
def tokens? (s : String) : Option (List Token) :=
  let cs := s.toList
  tokensFrom? cs.length cs

end Savefile.Expr
