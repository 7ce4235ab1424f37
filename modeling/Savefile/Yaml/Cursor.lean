/-! # A place in a document

The text that is left, with the line and column it starts at. Carriage return, line feed, both
together, and the Unicode line separators end a line.
-/
namespace Savefile.Yaml

/-- A space or a tab. -/
def isBlank (c : Char) : Bool := c == ' ' || c == '\t'

/-- A character that ends a line. -/
def isBreak (c : Char) : Bool :=
  c == '\n' || c == '\r' || c == '\x85' || c == '\u2028' || c == '\u2029'

/-- A character of an anchor, a directive or a tag handle. -/
def isWordChar (c : Char) : Bool := c.isAlphanum || c == '_' || c == '-'

/-- The text that is left and where it starts. -/
structure Cursor where
  rest : List Char
  index : Nat
  line : Nat
  column : Nat
  /-- The line ends stepped over since the last character that is not blank. -/
  freshLines : Nat

namespace Cursor

/-- The start of a text. -/
def start (cs : List Char) : Cursor := ⟨cs, 0, 0, 0, 0⟩

/-- The character `k` places ahead. -/
def peek (c : Cursor) (k : Nat) : Option Char := c.rest[k]?

/-- Whether the given character is `k` places ahead. -/
def looksAt (c : Cursor) (k : Nat) (ch : Char) : Bool := c.rest[k]? == some ch

/-- Whether the text ends here. -/
def atEnd (c : Cursor) : Bool := c.rest.isEmpty

/-- Whether a space or a tab is `k` places ahead. -/
def blankAt (c : Cursor) (k : Nat) : Bool := (c.rest[k]?.map isBlank).getD false

/-- Whether a line ends `k` places ahead, not counting the end of the text. -/
def breakAt (c : Cursor) (k : Nat) : Bool := (c.rest[k]?.map isBreak).getD false

/-- Whether a line or the text ends `k` places ahead. -/
def lineEndAt (c : Cursor) (k : Nat) : Bool := (c.rest[k]?.map isBreak).getD true

/-- Whether a word is over `k` places ahead: at a blank or at the end of the line. -/
def gapAt (c : Cursor) (k : Nat) : Bool := c.blankAt k || c.lineEndAt k

/-- Whether one of three equal marks, which separate documents, stands at the start of this
line. -/
def atDocumentMark (c : Cursor) : Bool :=
  c.column == 0 && (c.rest.take 3 == ['-', '-', '-'] || c.rest.take 3 == ['.', '.', '.'])
    && c.gapAt 3

/-- Steps over one character within a line. -/
def skip (c : Cursor) : Cursor :=
  match c.rest with
  | [] => c
  | ch :: rest =>
    ⟨rest, c.index + 1, c.line, c.column + 1, if isBlank ch then c.freshLines else 0⟩

/-- Steps over some characters within a line. -/
def advance : Nat → Cursor → Cursor
  | 0, c => c
  | n + 1, c => advance n c.skip

/-- Steps over the characters of a class within a line. -/
def skipWhile (p : Char → Bool) (c : Cursor) : Cursor := c.advance (c.rest.takeWhile p).length

/-- Steps over the rest of the line. -/
def skipToLineEnd (c : Cursor) : Cursor := c.skipWhile fun ch => !isBreak ch

/-- Steps over a line end, if there is one, and gives its text: all but the Unicode separators
become a line feed. -/
def readLine (c : Cursor) : List Char × Cursor :=
  match c.rest with
  | '\r' :: '\n' :: rest => (['\n'], ⟨rest, c.index + 2, c.line + 1, 0, c.freshLines + 1⟩)
  | ch :: rest =>
    if isBreak ch then
      (if ch == '\u2028' || ch == '\u2029' then [ch] else ['\n'],
        ⟨rest, c.index + 1, c.line + 1, 0, c.freshLines + 1⟩)
    else ([], c)
  | [] => ([], c)

/-- Steps over a line end, if there is one. -/
def skipLine (c : Cursor) : Cursor := c.readLine.2

end Cursor

end Savefile.Yaml
