import Savefile.Decimal.Spelling
import Savefile.Text.Utf8
import Savefile.Yaml.Cursor
import Savefile.Yaml.Token

/-! # Anchors, tags and directives

The small tokens that say something about a node or a document. Each must end where its kind
of token ends, or the document is refused.
-/
namespace Savefile.Yaml

/-- A token and the place after it. -/
abbrev TokenRead := Option (Token × Cursor)

/-- The characters that may follow an anchor without a blank between. -/
def anchorFollowers : List Char := ['?', ':', ',', ']', '\x7d', '%', '@', '\x60']

/-- The name of an anchor or an alias, from its mark on. -/
def anchorName? (c : Cursor) : Option (String × Cursor) :=
  let c := c.skip
  let name := c.rest.takeWhile isWordChar
  let next := c.advance name.length
  let ends := next.gapAt 0 || ((next.peek 0).map anchorFollowers.contains).getD false
  if !name.isEmpty && ends then some (String.ofList name, next) else none

/-- The characters of a tag apart from letters and digits. -/
def tagMarks : List Char :=
  [';', '/', '?', ':', '@', '&', '=', '+', '$', ',', '.', '!', '~', '*', '\'', '(', ')', '[', ']']

/-- How many bytes the character takes that starts with the given byte. -/
def utf8Width (n : Nat) : Nat :=
  if n < 0x80 then 1
  else if 0xc0 ≤ n && n < 0xe0 then 2
  else if 0xe0 ≤ n && n < 0xf0 then 3
  else if 0xf0 ≤ n && n < 0xf8 then 4
  else 0

/-- A byte written as a percent sign and two hexadecimal digits. -/
def percentByte? (c : Cursor) : Option Nat :=
  match c.rest with
  | '%' :: a :: b :: _ => do some ((← Decimal.hexValue? a) * 16 + (← Decimal.hexValue? b))
  | _ => none

/-- The bytes after the first of a character that is written by percent signs. -/
def percentTail? : Nat → Cursor → Option (List UInt8 × Cursor)
  | 0, c => some ([], c)
  | n + 1, c => do
    let b ← percentByte? c
    if 0x80 ≤ b && b < 0xc0 then
      let (bs, next) ← percentTail? n (c.advance 3)
      some (b.toUInt8 :: bs, next)
    else none

/-- A character that is written by percent signs. -/
def percentChar? (c : Cursor) : Option (List UInt8 × Cursor) := do
  let b ← percentByte? c
  if utf8Width b == 0 then none
  else
    let (bs, next) ← percentTail? (utf8Width b - 1) (c.advance 3)
    some (b.toUInt8 :: bs, next)

/-- The text of a tag after what was read of it so far. -/
def tagText? : Nat → List Char → Cursor → Option (List Char × Cursor)
  | 0, text, c => some (text, c)
  | fuel + 1, text, c =>
    match c.peek 0 with
    | none => some (text, c)
    | some ch =>
      if ch == '%' then do
        let (bs, next) ← percentChar? c
        tagText? fuel (text ++ Text.decodeLossy bs) next
      else if isWordChar ch || tagMarks.contains ch then tagText? fuel (text ++ [ch]) c.skip
      else some (text, c)

/-- A tag's text, which must not be empty. -/
def tagUri? (c : Cursor) : Option (List Char × Cursor) := do
  let (text, next) ← tagText? c.rest.length [] c
  if text.isEmpty then none else some (text, next)

/-- A handle: an exclamation mark, letters, and perhaps another mark. -/
def tagHandle (c : Cursor) : List Char × Cursor :=
  let letters := (c.rest.drop 1).takeWhile isWordChar
  let next := c.advance (1 + letters.length)
  if next.looksAt 0 '!' then ('!' :: letters ++ ['!'], next.skip) else ('!' :: letters, next)

/-- A tag token, which a blank must follow. -/
def tagEnd? (handle suffix : List Char) (c : Cursor) : TokenRead :=
  if c.gapAt 0 then some (.tag (String.ofList handle) (String.ofList suffix), c) else none

/-- A tag, from its exclamation mark on: verbatim, with a handle, or with the primary handle. A
lone mark has no handle. -/
def tag? (c : Cursor) : TokenRead :=
  if c.looksAt 1 '<' then do
    let (suffix, next) ← tagUri? (c.advance 2)
    if next.looksAt 0 '>' then tagEnd? [] suffix next.skip else none
  else
    let (handle, next) := tagHandle c
    if 1 < handle.length && handle.getLast? == some '!' then do
      let (suffix, next) ← tagUri? next
      tagEnd? handle suffix next
    else do
      let (suffix, next) ← tagText? next.rest.length (handle.drop 1) next
      if suffix.isEmpty then tagEnd? [] ['!'] next else tagEnd? ['!'] suffix next

/-- A number of a version, of one or two digits. -/
def versionNumber? (c : Cursor) : Option (Nat × Cursor) :=
  let digits := c.rest.takeWhile Char.isDigit
  if digits.isEmpty || 2 < digits.length then none
  else some (Decimal.digitsValue digits, c.advance digits.length)

def versionDirective? (c : Cursor) : TokenRead := do
  let (major, c) ← versionNumber? (c.skipWhile isBlank)
  if c.looksAt 0 '.' then
    let (minor, c) ← versionNumber? c.skip
    some (.versionDirective major minor, c)
  else none

/-- The rest of a tag directive: a handle and what it stands for. -/
def tagDirective? (c : Cursor) : TokenRead := do
  let c := c.skipWhile isBlank
  if c.looksAt 0 '!' then
    let (handle, c) := tagHandle c
    if handle != ['!'] && handle.getLast? != some '!' then none
    else if !c.blankAt 0 then none
    else
      let (expansion, c) ← tagUri? (c.skipWhile isBlank)
      if c.gapAt 0 then
        some (.tagDirective (String.ofList handle) (String.ofList expansion), c)
      else none
  else none

/-- A directive, from its percent sign to the end of its line. -/
def directive? (c : Cursor) : TokenRead := do
  let c := c.skip
  let name := c.rest.takeWhile isWordChar
  let c := c.advance name.length
  if name.isEmpty || !c.gapAt 0 then none
  else
    let (token, c) ← match String.ofList name with
      | "YAML" => versionDirective? c
      | "TAG" => tagDirective? c
      | _ => none
    let c := c.skipWhile isBlank
    let c := if c.looksAt 0 '#' then c.skipToLineEnd else c
    if c.lineEndAt 0 then some (token, c.skipLine) else none

end Savefile.Yaml
