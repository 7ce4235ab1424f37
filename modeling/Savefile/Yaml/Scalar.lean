import Savefile.Decimal.Spelling
import Savefile.Yaml.Cursor

/-! # Scalars

Plain and quoted scalars may go on over several lines: a single line end becomes a space, and
of several the first is dropped. A block scalar keeps its lines or folds them in the same way.
-/
namespace Savefile.Yaml

/-- What stands between two words of a scalar. -/
structure Gap where
  /-- The blanks, if no line ended yet. -/
  blanks : List Char
  /-- The first line end. -/
  first : List Char
  /-- The further line ends. -/
  more : List Char
  /-- Whether a line ended. -/
  broken : Bool

namespace Gap

/-- Nothing between two words. -/
def empty : Gap := ⟨[], [], [], false⟩

/-- The gap as it stands in the value. -/
def folded (g : Gap) : List Char :=
  if g.broken then
    if g.first.head? == some '\n' then if g.more.isEmpty then [' '] else g.more
    else g.first ++ g.more
  else g.blanks

/-- Reads blanks and line ends. At the start of a line a tab left of column `tabsFrom` is
refused. -/
def read? (tabsFrom : Nat) : Nat → Gap → Cursor → Option (Gap × Cursor)
  | 0, g, c => some (g, c)
  | fuel + 1, g, c =>
    match c.peek 0 with
    | none => some (g, c)
    | some ch =>
      if isBlank ch then
        if g.broken then
          if c.column < tabsFrom && ch == '\t' then none else read? tabsFrom fuel g c.skip
        else read? tabsFrom fuel { g with blanks := g.blanks ++ [ch] } c.skip
      else if isBreak ch then
        let (text, next) := c.readLine
        if g.broken then read? tabsFrom fuel { g with more := g.more ++ text } next
        else read? tabsFrom fuel ⟨[], text, g.more, true⟩ next
      else some (g, c)

end Gap

/-- A scalar's text, the place after it, and whether a line ended last. -/
structure ScalarEnd where
  text : List Char
  cursor : Cursor
  lineEnded : Bool

/-- The characters that end a plain scalar inside brackets. -/
def flowMarks : List Char := [',', '?', '[', ']', '\x7b', '\x7d']

/-- The word of a plain scalar that the text starts with: up to a blank, up to a colon before a
blank and, inside brackets, up to one of their marks. -/
def plainWord (flow : Bool) : List Char → List Char
  | [] => []
  | c :: cs =>
    if isBlank c || isBreak c then []
    else if c == ':' && (cs.head?.map fun d => isBlank d || isBreak d).getD true then []
    else if flow && flowMarks.contains c then []
    else c :: plainWord flow cs

/-- The rest of a plain scalar. `text` holds what was read so far and `gap` what stands after
it; lines must start at column `indent` or later. -/
def plainFrom? (flow : Bool) (indent : Nat) :
    Nat → List Char → Gap → Cursor → Option ScalarEnd
  | 0, text, gap, c => some ⟨text, c, gap.broken⟩
  | fuel + 1, text, gap, c =>
    if c.atDocumentMark || c.looksAt 0 '#' then some ⟨text, c, gap.broken⟩
    else
      let word := plainWord flow c.rest
      let next := c.advance word.length
      let (text, gap) := if word.isEmpty then (text, gap) else (text ++ gap.folded ++ word, .empty)
      if next.blankAt 0 || next.breakAt 0 then do
        let (gap, after) ← gap.read? indent next.rest.length next
        if !flow && after.column < indent then some ⟨text, after, gap.broken⟩
        else plainFrom? flow indent fuel text gap after
      else some ⟨text, next, gap.broken⟩

def plainScalar? (flow : Bool) (indent : Nat) (c : Cursor) : Option ScalarEnd :=
  plainFrom? flow indent (c.rest.length + 1) [] .empty c

def simpleEscape? : Char → Option Char
  | '0' => some '\x00'
  | 'a' => some '\x07'
  | 'b' => some '\x08'
  | 't' | '\t' => some '\t'
  | 'n' => some '\n'
  | 'v' => some '\x0b'
  | 'f' => some '\x0c'
  | 'r' => some '\r'
  | 'e' => some '\x1b'
  | ' ' => some ' '
  | '"' => some '"'
  | '\'' => some '\''
  | '\\' => some '\\'
  | 'N' => some '\x85'
  | '_' => some '\xa0'
  | 'L' => some '\u2028'
  | 'P' => some '\u2029'
  | _ => none

/-- The number of digits of an escape by number. -/
def escapeDigits? : Char → Option Nat
  | 'x' => some 2
  | 'u' => some 4
  | 'U' => some 8
  | _ => none

/-- The character with the given number, unless it is a surrogate or too large. -/
def charOfCode? (n : Nat) : Option Char :=
  if (0xd800 ≤ n && n ≤ 0xdfff) || 0x10ffff < n then none else some (Char.ofNat n)

/-- The character of an escape, and the number of characters after the backslash. -/
def escape? (c : Cursor) : Option (Char × Nat) := do
  let letter ← c.peek 1
  match escapeDigits? letter with
  | none => (simpleEscape? letter).map fun ch => (ch, 1)
  | some width =>
    let values ← ((c.rest.drop 2).take width).mapM Decimal.hexValue?
    if values.length == width then
      (charOfCode? (values.foldl (fun n d => n * 16 + d) 0)).map fun ch => (ch, width + 1)
    else none

/-- A run of a quoted scalar up to a blank, a line end or the closing quote; the flag tells that
an escaped line end finished it. -/
def quotedRun? (quote : Char) : Nat → List Char → Cursor → Option (List Char × Bool × Cursor)
  | 0, text, c => some (text, false, c)
  | fuel + 1, text, c =>
    match c.peek 0 with
    | none => some (text, false, c)
    | some ch =>
      if isBlank ch || isBreak ch then some (text, false, c)
      else if ch == quote then
        if quote == '\'' && c.looksAt 1 '\'' then
          quotedRun? quote fuel (text ++ ['\'']) (c.advance 2)
        else some (text, false, c)
      else if quote == '"' && ch == '\\' then
        if c.breakAt 1 then some (text, true, c.skip.skipLine)
        else do
          let (escaped, width) ← escape? c
          quotedRun? quote fuel (text ++ [escaped]) (c.advance (width + 1))
      else quotedRun? quote fuel (text ++ [ch]) c.skip

def quotedFrom? (quote : Char) : Nat → List Char → Cursor → Option ScalarEnd
  | 0, _, _ => none
  | fuel + 1, text, c =>
    if c.atDocumentMark || c.atEnd then none
    else do
      let (text, escaped, next) ← quotedRun? quote c.rest.length text c
      if next.looksAt 0 quote && !escaped then some ⟨text, next.skip, false⟩
      else
        let (gap, after) ← Gap.read? 0 next.rest.length { Gap.empty with broken := escaped } next
        quotedFrom? quote fuel (text ++ gap.folded) after

def quotedScalar? (quote : Char) (c : Cursor) : Option ScalarEnd :=
  quotedFrom? quote (c.rest.length + 1) [] c.skip

/-- What a block scalar keeps of the line ends after it. -/
inductive Chomping where
  | strip
  | clip
  | keep
  deriving DecidableEq

def chompingMark? (c : Cursor) : Option Chomping :=
  if c.looksAt 0 '+' then some .keep else if c.looksAt 0 '-' then some .strip else none

/-- The marks of a block scalar in either order, and how much deeper it is indented; a zero is
refused. -/
def blockHeader? (c : Cursor) : Option (Chomping × Nat × Cursor) :=
  let digit? := fun (c : Cursor) => (c.peek 0).bind fun ch =>
    if ch.isDigit then some (ch.toNat - '0'.toNat) else none
  match chompingMark? c with
  | some chomping =>
    let c := c.skip
    match digit? c with
    | some 0 => none
    | some n => some (chomping, n, c.skip)
    | none => some (chomping, 0, c)
  | none =>
    match digit? c with
    | some 0 => none
    | some n =>
      let c := c.skip
      match chompingMark? c with
      | some chomping => some (chomping, n, c.skip)
      | none => some (.clip, n, c)
    | none => some (.clip, 0, c)

/-- Indentation and empty lines: the line ends, the widest indentation, and the place after
them. A tab where a space of the indentation is due is refused; an indentation of zero is not
known yet. -/
def blockBreaks? (indent : Nat) : Nat → List Char → Nat → Cursor → Option (List Char × Nat × Cursor)
  | 0, breaks, widest, c => some (breaks, widest, c)
  | fuel + 1, breaks, widest, c =>
    let spaces := (c.rest.takeWhile (· == ' ')).length
    let c := c.advance (if indent == 0 then spaces else min spaces (indent - c.column))
    let widest := max widest c.column
    if (indent == 0 || c.column < indent) && c.looksAt 0 '\t' then none
    else if c.breakAt 0 then
      let (text, next) := c.readLine
      blockBreaks? indent fuel (breaks ++ text) widest next
    else some (breaks, widest, c)

/-- The lines of a block scalar: the text, the line end of the last line and those after it. -/
def blockLines? (literal : Bool) (indent : Nat) :
    Nat → List Char → List Char → List Char → Bool → Cursor →
    Option (List Char × List Char × List Char × Cursor)
  | 0, text, lineEnd, breaks, _, c => some (text, lineEnd, breaks, c)
  | fuel + 1, text, lineEnd, breaks, afterBlank, c =>
    if c.column == indent && !c.atEnd then do
      let blank := c.blankAt 0
      let joint :=
        if !literal && !afterBlank && !blank && lineEnd.head? == some '\n' then
          if breaks.isEmpty then [' '] else []
        else lineEnd
      let line := c.rest.takeWhile fun ch => !isBreak ch
      let (lineEnd, next) := (c.advance line.length).readLine
      let text := text ++ joint ++ breaks ++ line
      let (breaks, _, next) ← blockBreaks? indent next.rest.length [] 0 next
      blockLines? literal indent fuel text lineEnd breaks blank next
    else some (text, lineEnd, breaks, c)

/-- A block scalar, from its mark on, inside a block of the given indentation, which is negative
outside of all blocks. -/
def blockScalar? (literal : Bool) (indent : Int) (c : Cursor) : Option ScalarEnd := do
  let (chomping, increment, c) ← blockHeader? c.skip
  let c := c.skipWhile isBlank
  let c := if c.looksAt 0 '#' then c.skipToLineEnd else c
  if !c.lineEndAt 0 then none
  else
    let c := c.skipLine
    let given := if increment == 0 then 0 else (max indent 0).toNat + increment
    let (breaks, widest, c) ← blockBreaks? given (c.rest.length + 1) [] 0 c
    let inner := if given == 0 then max widest (max (indent + 1).toNat 1) else given
    let (text, lineEnd, breaks, c) ←
      blockLines? literal inner (c.rest.length + 1) [] [] breaks false c
    let tail := match chomping with
      | .strip => []
      | .clip => lineEnd
      | .keep => lineEnd ++ breaks
    some ⟨text ++ tail, c, true⟩

end Savefile.Yaml
