import Savefile.Decimal.Spelling
import Savefile.Json.Value

/-! # JSON tokens

A text is cut into marks, words, numbers and strings. Whatever is no token ends the cutting with
a token of its own, so that text after a complete value need not be valid.
-/
namespace Savefile.Json

/-- A token. -/
inductive Token where
  | openArray
  | closeArray
  | openObject
  | closeObject
  | comma
  | colon
  /-- A value that is a single token. -/
  | leaf (value : Json)
  /-- Text that is no token. -/
  | invalid

def isBlank (c : Char) : Bool := c == ' ' || c == '\t' || c == '\n' || c == '\r'

/-- The number that four hexadecimal digits stand for, and the text after them. -/
def fourDigits? : List Char → Option (Nat × List Char)
  | a :: b :: c :: d :: cs => do
    let x ← Decimal.hexValue? a
    let y ← Decimal.hexValue? b
    let z ← Decimal.hexValue? c
    let w ← Decimal.hexValue? d
    some (((x * 16 + y) * 16 + z) * 16 + w, cs)
  | _ => none

/-- Whether a number is the first half of a pair that stands for one character. -/
def isHighHalf (n : Nat) : Bool := 0xd800 ≤ n && n < 0xdc00

/-- Whether a number is the second half of a pair that stands for one character. -/
def isLowHalf (n : Nat) : Bool := 0xdc00 ≤ n && n < 0xe000

/-- The character that a number escape stands for, and how many further characters of the text
after it belong to it. A half without its partner is replaced. -/
def numberEscape (n : Nat) (rest : List Char) : Char × Nat :=
  if isHighHalf n then
    match rest with
    | '\\' :: 'u' :: more =>
      match fourDigits? more with
      | some (m, _) =>
        if isLowHalf m then (Char.ofNat (0x10000 + (n - 0xd800) * 0x400 + (m - 0xdc00)), 6)
        else ('�', 0)
      | none => ('�', 0)
    | _ => ('�', 0)
  else if isLowHalf n then ('�', 0)
  else (Char.ofNat n, 0)

/-- The character that a letter after a backslash stands for. -/
def letterEscape? : Char → Option Char
  | '"' => some '"'
  | '\\' => some '\\'
  | '/' => some '/'
  | 'b' => some '\x08'
  | 'f' => some '\x0c'
  | 'n' => some '\n'
  | 'r' => some '\r'
  | 't' => some '\t'
  | _ => none

/-- Reads the rest of a string after its opening quote. The first argument counts characters that
belong to an escape already read. -/
def readString? : Nat → List Char → List Char → Option (String × List Char)
  | _, _, [] => none
  | skip + 1, read, _ :: cs => readString? skip read cs
  | 0, read, c :: cs =>
    if c == '"' then some (String.ofList read.reverse, cs)
    else if c == '\\' then
      match cs with
      | [] => none
      | e :: rest =>
        if e == 'u' then
          match fourDigits? rest with
          | none => none
          | some (n, after) =>
            let (x, more) := numberEscape n after
            readString? (5 + more) (x :: read) cs
        else
          match letterEscape? e with
          | none => none
          | some x => readString? 1 (x :: read) cs
    else if c.toNat < 0x20 then none
    else readString? 0 (c :: read) cs

/-- Splits off the leading decimal digits. -/
def digitRun (cs : List Char) : List Char × List Char := cs.span Char.isDigit

/-- Splits off a point with at least one digit; nothing if there is no point. -/
def fractionPart? : List Char → Option (List Char × List Char)
  | '.' :: cs =>
    let (ds, rest) := digitRun cs
    if ds.isEmpty then none else some ('.' :: ds, rest)
  | cs => some ([], cs)

/-- Splits off an exponent with at least one digit; nothing if there is no mark of one. -/
def exponentPart? : List Char → Option (List Char × List Char)
  | [] => some ([], [])
  | e :: cs =>
    if e == 'e' || e == 'E' then
      let (sign, body) := match cs with
        | '+' :: body => (['+'], body)
        | '-' :: body => (['-'], body)
        | body => ([], body)
      let (ds, rest) := digitRun body
      if ds.isEmpty then none else some (e :: sign ++ ds, rest)
    else some ([], e :: cs)

/-- Splits off the whole part of a number: a single zero, or digits that start with none. -/
def wholePart? : List Char → Option (List Char × List Char)
  | '0' :: cs => some (['0'], cs)
  | cs =>
    let (ds, rest) := digitRun cs
    if ds.isEmpty then none else some (ds, rest)

def readNumber? (cs : List Char) : Option (String × List Char) := do
  let (sign, body) := match cs with
    | '-' :: body => (['-'], body)
    | body => ([], body)
  let (whole, rest) ← wholePart? body
  let (fraction, rest) ← fractionPart? rest
  let (exponent, rest) ← exponentPart? rest
  some (String.ofList (sign ++ whole ++ fraction ++ exponent), rest)

def mark? : Char → Option Token
  | '[' => some .openArray
  | ']' => some .closeArray
  | '\x7b' => some .openObject
  | '\x7d' => some .closeObject
  | ',' => some .comma
  | ':' => some .colon
  | _ => none

/-- A word at the start of a text, and what follows it. -/
def word? (cs : List Char) : Option (Json × List Char) :=
  if "null".toList.isPrefixOf cs then some (.null, cs.drop 4)
  else if "true".toList.isPrefixOf cs then some (.bool true, cs.drop 4)
  else if "false".toList.isPrefixOf cs then some (.bool false, cs.drop 5)
  else none

/-- The first token of a text that starts with none of the blanks, and what follows it. -/
def nextToken? (c : Char) (cs : List Char) : Option (Token × List Char) :=
  match mark? c with
  | some t => some (t, cs)
  | none =>
    if c == '"' then (readString? 0 [] cs).map fun (s, rest) => (.leaf (.string s), rest)
    else if c == '-' || c.isDigit then
      (readNumber? (c :: cs)).map fun (text, rest) => (.leaf (.number text), rest)
    else (word? (c :: cs)).map fun (j, rest) => (.leaf j, rest)

/-- The tokens of a text; as many steps as it has characters are enough. -/
def tokensFrom : Nat → List Char → List Token
  | 0, _ => []
  | _, [] => []
  | fuel + 1, c :: cs =>
    if isBlank c then tokensFrom fuel cs
    else
      match nextToken? c cs with
      | some (t, rest) => t :: tokensFrom fuel rest
      | none => [.invalid]

/-- The tokens of a text. -/
def tokens (cs : List Char) : List Token := tokensFrom cs.length cs

end Savefile.Json
