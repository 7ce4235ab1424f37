import Savefile.Yaml.Property
import Savefile.Yaml.Scalar

/-! # From text to tokens

Indentation opens and closes blocks. A key needs no mark of its own: the place where one may
have started is remembered, and the token that marks a key is put in there once its colon is
found on the same line. A document that cannot be read is cut off at the fault, so that what
stands before it can still be looked at.
-/
namespace Savefile.Yaml

/-- A place where a key without a mark may have started. -/
structure SimpleKey where
  /-- Whether only a key can stand there. -/
  required : Bool
  /-- How many tokens stand before it. -/
  token : Nat
  index : Nat
  line : Nat
  column : Nat

/-- How far the reading of a document has come. -/
structure Layout where
  cursor : Cursor
  /-- The column of the innermost block, negative outside of all blocks. -/
  indent : Int
  /-- The columns of the blocks around it, innermost first. -/
  indents : List Int
  /-- Whether a key without a mark may start here. -/
  keyAllowed : Bool
  /-- The place of a possible key at each level of brackets, innermost first. -/
  keys : List (Option SimpleKey)
  tokens : Array Token

namespace Layout

/-- The deepest nesting of brackets or blocks. -/
def depthLimit : Nat := 10000

/-- The most characters of a key without a mark. -/
def keyLimit : Nat := 1024

/-- How far comments are looked for ahead. -/
def commentReach : Nat := 512

/-- The start of a document. -/
def start (cs : List Char) : Layout := ⟨.start cs, -1, [], true, [none], #[]⟩

/-- The level of brackets. -/
def flowLevel (l : Layout) : Nat := l.keys.length - 1

/-- Whether brackets are open. -/
def inFlow (l : Layout) : Bool := 0 < l.flowLevel

/-- The possible key of the innermost level. -/
def key? (l : Layout) : Option SimpleKey := l.keys.head?.bind id

/-- Replaces the possible key of the innermost level. -/
def setKey (l : Layout) (k : Option SimpleKey) : Layout := { l with keys := k :: l.keys.drop 1 }

/-- Adds a token. -/
def push (l : Layout) (t : Token) : Layout := { l with tokens := l.tokens.push t }

/-- Puts a token in before others. -/
def insertAt (l : Layout) (i : Nat) (t : Token) : Layout :=
  { l with tokens := l.tokens.insertIdxIfInBounds i t }

/-- Steps over some characters and adds a token for them. -/
def take (l : Layout) (n : Nat) (t : Token) : Layout :=
  ({ l with cursor := l.cursor.advance n } : Layout).push t

/-- Opens a block at the given column if it is deeper, with its token at place `i`. -/
def roll? (l : Layout) (column : Nat) (i : Nat) (t : Token) : Option Layout :=
  if !l.inFlow && l.indent < column then
    if l.indents.length < depthLimit then
      some ({ l with indent := column, indents := l.indent :: l.indents }.insertAt i t)
    else none
  else some l

/-- Closes the blocks that start right of the column. -/
def unroll (column : Int) : Nat → Layout → Layout
  | 0, l => l
  | fuel + 1, l =>
    if !l.inFlow && column < l.indent then
      unroll column fuel
        (Layout.push { l with indent := l.indents.headD (-1), indents := l.indents.drop 1 }
          .blockEnd)
    else l

/-- Closes the blocks that start right of the column. -/
def unrollTo (l : Layout) (column : Int) : Layout := unroll column (l.indents.length + 1) l

/-- Gives up the possible key, unless one is required. -/
def dropKey? (l : Layout) : Option Layout :=
  match l.key? with
  | some k => if k.required then none else some (l.setKey none)
  | none => some l

/-- Remembers that a key may start here. -/
def saveKey? (l : Layout) : Option Layout :=
  if l.keyAllowed then do
    let c := l.cursor
    let required := !l.inFlow && l.indent == c.column
    let l ← l.dropKey?
    some (l.setKey (some ⟨required, l.tokens.size, c.index, c.line, c.column⟩))
  else some l

/-- The possible key if its colon may still come: on the same line and not too far. A required
key that is too old is refused. -/
def liveKey? (l : Layout) : Option (Option SimpleKey) :=
  match l.key? with
  | none => some none
  | some k =>
    if k.line < l.cursor.line || k.index + keyLimit < l.cursor.index then
      if k.required then none else some none
    else some (some k)

/-- Steps over the comment lines that follow a comment, whatever blanks stand before them. -/
def skipCommentRun : Nat → Cursor → Cursor
  | 0, c => c
  | fuel + 1, c =>
    let c := c.skipToLineEnd
    let after := c.rest.drop 1
    let gap := (after.takeWhile fun ch => isBlank ch || isBreak ch).length
    if (after.drop gap).head? == some '#' && gap + 1 < commentReach then
      skipCommentRun fuel (stepOver (gap + 1) c)
    else c
where
  /-- Steps over blanks and line ends. -/
  stepOver : Nat → Cursor → Cursor
    | 0, c => c
    | n + 1, c =>
      match c.rest with
      | '\r' :: '\n' :: _ => stepOver (n - 1) c.skipLine
      | ch :: _ => if isBreak ch then stepOver n c.skipLine else stepOver n c.skip
      | [] => c

/-- Steps over blanks, comments and line ends. A tab is a blank only inside brackets or where no
key may start. -/
def skipToToken : Nat → Layout → Layout
  | 0, l => l
  | fuel + 1, l =>
    let tabs := l.inFlow || !l.keyAllowed
    let c := l.cursor.skipWhile fun ch => ch == ' ' || (tabs && ch == '\t')
    let c := if c.looksAt 0 '#' then skipCommentRun c.rest.length c else c
    if c.breakAt 0 then
      skipToToken fuel
        { l with cursor := c.skipLine, keyAllowed := l.keyAllowed || !l.inFlow }
    else { l with cursor := c }

/-- Steps over a comment on the line of the token just read. -/
def skipLineComment (l : Layout) : Layout :=
  let c := l.cursor
  let blanks := (c.rest.takeWhile isBlank).length
  if c.freshLines == 0 && blanks < commentReach && c.looksAt blanks '#' then
    { l with cursor := c.skipToLineEnd }
  else l

/-- A mark that starts a bracket. -/
def openFlow? (l : Layout) (t : Token) : Option Layout := do
  let l ← l.saveKey?
  if l.flowLevel < depthLimit then
    some (take { l with keys := none :: l.keys, keyAllowed := true } 1 t)
  else none

/-- A mark that ends a bracket. -/
def closeFlow? (l : Layout) (t : Token) : Option Layout := do
  let l ← l.dropKey?
  let keys := if l.inFlow then l.keys.drop 1 else l.keys
  some (take { l with keys := keys, keyAllowed := false } 1 t)

/-- A comma between the items of a bracket. -/
def flowEntry? (l : Layout) : Option Layout := do
  let l ← l.dropKey?
  some (take { l with keyAllowed := true } 1 .flowEntry)

/-- The dash of an item. -/
def blockEntry? (l : Layout) : Option Layout :=
  if !l.inFlow && !l.keyAllowed then none
  else do
    let l ← l.roll? l.cursor.column l.tokens.size .blockSequenceStart
    let l ← l.dropKey?
    some (take { l with keyAllowed := true } 1 .blockEntry)

def markedKey? (l : Layout) : Option Layout :=
  if !l.inFlow && !l.keyAllowed then none
  else do
    let l ← l.roll? l.cursor.column l.tokens.size .blockMappingStart
    let l ← l.dropKey?
    some (take { l with keyAllowed := !l.inFlow } 1 .key)

/-- The colon before a value. If a possible key stands before it, that is the key. -/
def value? (l : Layout) : Option Layout := do
  match ← l.liveKey? with
  | some k =>
    let l := l.insertAt k.token .key
    let l ← l.roll? k.column k.token .blockMappingStart
    some (take { l.setKey none with keyAllowed := false } 1 .value)
  | none =>
    if !l.inFlow && !l.keyAllowed then none
    else
      let l := l.setKey none
      let l ← l.roll? l.cursor.column l.tokens.size .blockMappingStart
      some (take { l with keyAllowed := !l.inFlow } 1 .value)

/-- A token that may start a key. -/
def property? (l : Layout) (read : Cursor → TokenRead) : Option Layout := do
  let l ← l.saveKey?
  let (t, c) ← read l.cursor
  some (Layout.push { l with keyAllowed := false, cursor := c } t)

/-- A scalar that may be a key. After one that ends with a line a key may start. -/
def scalar? (l : Layout) (plain : Bool) (read : Cursor → Option ScalarEnd) : Option Layout := do
  let l ← l.saveKey?
  let s ← read l.cursor
  some (Layout.push { l with keyAllowed := s.lineEnded, cursor := s.cursor }
    (.scalar (String.ofList s.text) plain))

/-- A block scalar, which is never a key. -/
def blockScalarToken? (l : Layout) (literal : Bool) : Option Layout := do
  let l ← l.dropKey?
  let s ← blockScalar? literal l.indent l.cursor
  some (Layout.push { l with keyAllowed := true, cursor := s.cursor }
    (.scalar (String.ofList s.text) false))

/-- The end of the text. -/
def streamEnd? (l : Layout) : Option Layout := do
  let l ← (l.unrollTo (-1)).dropKey?
  some ({ l with keyAllowed := false }.push .streamEnd)

def directiveToken? (l : Layout) : Option Layout := do
  let l ← (l.unrollTo (-1)).dropKey?
  let (t, c) ← directive? l.cursor
  some (Layout.push { l with keyAllowed := false, cursor := c } t)

def documentMark? (l : Layout) (t : Token) : Option Layout := do
  let l ← (l.unrollTo (-1)).dropKey?
  some (take { l with keyAllowed := false } 3 t)

/-- The characters that start no plain scalar. -/
def indicators : List Char :=
  ['-', '?', ':', ',', '[', ']', '\x7b', '\x7d', '#', '&', '*', '!', '|', '>', '\'', '"', '%',
   '@', '\x60']

/-- Whether a plain scalar starts here. -/
def startsPlain (l : Layout) : Bool :=
  let c := l.cursor
  match c.peek 0 with
  | none => false
  | some ch =>
    !(isBlank ch || isBreak ch || indicators.contains ch)
      || (ch == '-' && !c.blankAt 1)
      || (!l.inFlow && (ch == '?' || ch == ':') && !c.gapAt 1)

/-- The token that starts at the cursor, which is not at the end of the text. -/
def token? (l : Layout) : Option Layout :=
  let c := l.cursor
  let marked := fun k => l.inFlow || c.gapAt k
  match c.peek 0 with
  | none => none
  | some ch =>
    if ch == '[' then l.openFlow? .flowSequenceStart
    else if ch == '\x7b' then l.openFlow? .flowMappingStart
    else if ch == ']' then l.closeFlow? .flowSequenceEnd
    else if ch == '\x7d' then l.closeFlow? .flowMappingEnd
    else if ch == ',' then l.flowEntry?
    else if ch == '-' && c.gapAt 1 then l.blockEntry?
    else if ch == '?' && marked 1 then l.markedKey?
    else if ch == ':' && marked 1 then l.value?
    else if ch == '*' then l.property? fun c => (anchorName? c).map fun (n, d) => (.alias n, d)
    else if ch == '&' then l.property? fun c => (anchorName? c).map fun (n, d) => (.anchor n, d)
    else if ch == '!' then l.property? tag?
    else if ch == '|' && !l.inFlow then l.blockScalarToken? true
    else if ch == '>' && !l.inFlow then l.blockScalarToken? false
    else if ch == '\'' || ch == '"' then l.scalar? false (quotedScalar? ch)
    else if l.startsPlain then l.scalar? true (plainScalar? l.inFlow (l.indent + 1).toNat)
    else none

/-- Reads the next token and whatever closes before it. -/
def next? (l : Layout) : Option Layout :=
  let l := skipToToken (l.cursor.rest.length + 1) l
  let c := l.cursor
  let l := l.unrollTo c.column
  if c.atEnd then l.streamEnd?
  else if c.column == 0 && c.looksAt 0 '%' then l.directiveToken?
  else if c.atDocumentMark then
    l.documentMark? (if c.looksAt 0 '-' then .documentStart else .documentEnd)
  else do
    let l ← l.token?
    some (if l.tokens.back? == some .blockEntry then l else l.skipLineComment)

/-- Reads all tokens, or those before the first fault. -/
def run : Nat → Layout → Array Token
  | 0, l => l.tokens
  | fuel + 1, l =>
    match l.next? with
    | none => l.tokens.push .broken
    | some l => if l.tokens.back? == some .streamEnd then l.tokens else run fuel l

end Layout

/-- The tokens of a document. -/
def Token.ofChars (cs : List Char) : List Token :=
  let cs := if cs.isEmpty then ['\n'] else cs
  (Layout.run (cs.length + 2) (.start cs)).toList

end Savefile.Yaml
