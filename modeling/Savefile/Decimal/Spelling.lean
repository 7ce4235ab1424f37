import Savefile.Decimal.Reading

/-! # Spellings of numbers

Text that stands for a float by itself may name an infinity or the value that is no number,
separate digits by underscores, and give the digits in base sixteen with a power of two. A whole
number may likewise be in base two, eight or sixteen.
-/
namespace Savefile.Decimal

/-- The value of a hexadecimal digit. -/
def hexValue? (c : Char) : Option Nat := digitValue? c

/-- Whether the text, its sign apart, starts with the mark of base sixteen. -/
def isHexadecimal : List Char → Bool
  | '0' :: c :: _ :: _ => c == 'x' || c == 'X'
  | _ => false

/-- Whether each underscore stands between two digits. `digit` tells whether a digit stands
before the text. -/
def separatesDigits (isDigit : Char → Bool) : Bool → List Char → Bool
  | _, [] => true
  | digit, '_' :: c :: cs => digit && isDigit c && separatesDigits isDigit false (c :: cs)
  | _, ['_'] => false
  | _, c :: cs => separatesDigits isDigit (isDigit c) cs

/-- The text without the underscores between its digits, unless one stands elsewhere. The mark of
a base counts as a digit. -/
def withoutUnderscores? (cs : List Char) : Option (List Char) :=
  let fine :=
    if isHexadecimal cs then separatesDigits (fun c => (hexValue? c).isSome) true (cs.drop 2)
    else separatesDigits Char.isDigit false cs
  if fine then some (cs.filter (· != '_')) else none

/-- The quotient written by hexadecimal digits with a point and a power of two. -/
def readHexadecimal? (cs : List Char) : Option Ratio := do
  let isHex := fun c => (hexValue? c).isSome
  let whole := cs.takeWhile isHex
  let rest := cs.dropWhile isHex
  let (fraction, tail) := match rest with
    | '.' :: more => (more.takeWhile isHex, more.dropWhile isHex)
    | _ => ([], rest)
  match tail with
  | p :: digits =>
    if (p == 'p' || p == 'P') && !(whole.isEmpty && fraction.isEmpty) then
      let exponent ← readExponent? ('e' :: digits)
      let value := (whole ++ fraction).foldl (fun n c => n * 16 + (hexValue? c).getD 0) 0
      some (Ratio.scale ⟨value, 1⟩ 2 (exponent - 4 * fraction.length))
    else none
  | [] => none

/-- The packed magnitude that a text without a sign spells. -/
def readMagnitude (f : BinaryFormat) (cs : List Char) : Except NumberError Nat :=
  match withoutUnderscores? cs with
  | none => .error .syntaxError
  | some cs =>
    if isHexadecimal cs then
      match readHexadecimal? (cs.drop 2) with
      | none => .error .syntaxError
      | some r =>
        let magnitude := f.ofRatio r
        if magnitude < f.infinity then .ok magnitude else .error .outOfRange
    else if cs.head? == some '+' || cs.head? == some '-' then .error .syntaxError
    else readFloat f cs

/-- A float as packed bits, in any spelling. -/
def readAnyFloat (f : BinaryFormat) (cs : List Char) : Except NumberError Nat :=
  let (signed, negative, body) := match cs with
    | '-' :: body => (true, true, body)
    | '+' :: body => (true, false, body)
    | body => (false, false, body)
  let word := String.ofList (body.map Char.toLower)
  let magnitude :=
    if word == "inf" || word == "infinity" then .ok f.infinity
    else if !signed && word == "nan" then .ok f.quietNaN
    else readMagnitude f body
  magnitude.map fun m => if negative then f.signBit + m else m

/-- The base of a whole number without a sign, and its digits. -/
def baseOf : List Char → Nat × List Char
  | '0' :: c :: d :: cs =>
    if c == 'b' || c == 'B' then (2, d :: cs)
    else if c == 'o' || c == 'O' then (8, d :: cs)
    else if c == 'x' || c == 'X' then (16, d :: cs)
    else (8, c :: d :: cs)
  | '0' :: cs => (8, cs)
  | cs => (10, cs)

/-- Whether the text, its sign apart, starts with the mark of a base. -/
def hasBaseMark : List Char → Bool
  | '0' :: c :: _ => "bBoOxX".toList.contains c
  | _ => false

/-- Whether the underscores of a whole number stand between digits. The mark of a base counts as a
digit. -/
def underscoresFit (cs : List Char) : Bool :=
  let isHex := (baseOf cs).1 == 16
  let isDigit := fun c : Char => if isHex then (digitValue? c).isSome else c.isDigit
  if hasBaseMark cs then separatesDigits isDigit true (cs.drop 2)
  else separatesDigits isDigit false cs

/-- A whole number of `bits` bits in two's complement, in any spelling. -/
def readAnySigned (bits : Nat) (cs : List Char) : Except NumberError Int :=
  let (negative, body) := match cs with
    | '-' :: body => (true, body)
    | '+' :: body => (false, body)
    | body => (false, body)
  if body.isEmpty then .error .syntaxError
  else
    let (base, digits) := baseOf body
    (readDigits base (Nat.pow 2 bits) 0 (digits.filter (· != '_'))).bind fun n =>
      if underscoresFit body then withSign bits negative n else .error .syntaxError

end Savefile.Decimal
