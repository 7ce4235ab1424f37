import Savefile.Yaml.Input
import Savefile.Yaml.Layout
import Savefile.Yaml.Node

/-! # From tokens to nodes

Reads the first document of a stream. A node that is left out is an empty plain scalar. An alias
must name an anchor that was met before it, its own enclosing node included.
-/
namespace Savefile.Yaml

/-- The tokens that are left, and what was declared before them. -/
structure TreeState where
  tokens : List Token
  anchors : List String
  /-- What each tag handle stands for, the first match counting. -/
  handles : List (String × String)

/-- How many tokens are looked at together; a fault among them shows at once. -/
def lookahead : Nat := 3

/-- Reads a node with the state after it. -/
abbrev NodeRead := Option (Node × TreeState)

namespace TreeState

/-- The next token, unless a fault is near. -/
def peek? (s : TreeState) : Option Token :=
  if (s.tokens.take lookahead).contains .broken then none else s.tokens.head?

/-- The state after the next token. -/
def skip (s : TreeState) : TreeState := { s with tokens := s.tokens.drop 1 }

end TreeState

/-- A node that is left out. -/
def emptyNode : Node := .scalar nullTag ""

/-- What stands before a node. -/
structure Properties where
  anchor : Option String
  tag : Option String

/-- The full tag that a handle and a suffix stand for. -/
def expandTag? (s : TreeState) (handle suffix : String) : Option String :=
  if handle.isEmpty then some suffix
  else (s.handles.lookup handle).map fun expansion => expansion ++ suffix

def anchorNext? (s : TreeState) : Option (Option String × TreeState) := do
  match ← s.peek? with
  | .anchor name => some (some name, s.skip)
  | _ => some (none, s)

def tagNext? (s : TreeState) : Option (Option String × TreeState) := do
  match ← s.peek? with
  | .tag handle suffix => some (some (← expandTag? s handle suffix), s.skip)
  | _ => some (none, s)

/-- An anchor and a tag in either order. -/
def properties? (s : TreeState) : Option (Properties × TreeState) := do
  match ← anchorNext? s with
  | (some anchor, s) =>
    let (tag, s) ← tagNext? s
    some (⟨some anchor, tag⟩, s)
  | (none, s) =>
    match ← tagNext? s with
    | (some tag, s) =>
      let (anchor, s) ← anchorNext? s
      some (⟨anchor, some tag⟩, s)
    | (none, s) => some (⟨none, none⟩, s)

/-- The tag of a scalar: its own unless it is unspecific, else one by its form. -/
def scalarTag (tag : Option String) (plain : Bool) (value : String) : String :=
  match tag with
  | some t => if t.isEmpty || t == "!" then implied else shortTag t
  | none => implied
where
  /-- The tag of a scalar without one. -/
  implied := if plain then if value == "<<" then "!!merge" else plainTag value else textTag

/-- Whether the token is one of those given. -/
def isOneOf (t : Token) (ts : List Token) : Bool := ts.contains t

mutual

/-- A node. Outside of brackets it may be a block; a sequence of entries may stand without a
start of its own where `indentless` says so. -/
def node? : Nat → Bool → Bool → TreeState → NodeRead
  | 0, _, _, _ => none
  | fuel + 1, block, indentless, s => do
    match ← s.peek? with
    | .alias name => if s.anchors.contains name then some (.alias name, s.skip) else none
    | _ =>
      let (props, s) ← properties? s
      let s := { s with anchors := props.anchor.toList ++ s.anchors }
      match ← s.peek? with
      | .scalar text plain => some (.scalar (scalarTag props.tag plain text) text, s.skip)
      | .flowSequenceStart => flowSequence? fuel true [] s.skip
      | .flowMappingStart => flowMapping? fuel true [] s.skip
      | t =>
        if indentless && t == .blockEntry then indentlessSequence? fuel [] s
        else if block && t == .blockSequenceStart then blockSequence? fuel [] s.skip
        else if block && t == .blockMappingStart then blockMapping? fuel [] s.skip
        else if props.anchor.isSome || (props.tag.map fun t => !t.isEmpty).getD false then
          some (.scalar (scalarTag props.tag true "") "", s)
        else none

/-- A node, or an empty one if the next token is one of those given. -/
def nodeUnless? : Nat → List Token → Bool → Bool → TreeState → NodeRead
  | 0, _, _, _, _ => none
  | fuel + 1, ends, block, indentless, s => do
    if ends.contains (← s.peek?) then some (emptyNode, s) else node? fuel block indentless s

/-- The entries of a block sequence, after those read so far, newest first. -/
def blockSequence? : Nat → List Node → TreeState → NodeRead
  | 0, _, _ => none
  | fuel + 1, items, s => do
    match ← s.peek? with
    | .blockEntry =>
      let (item, s) ← nodeUnless? fuel [.blockEntry, .blockEnd] true false s.skip
      blockSequence? fuel (item :: items) s
    | .blockEnd => some (.sequence items.reverse, s.skip)
    | _ => none

/-- The entries of a sequence that is indented like its key. -/
def indentlessSequence? : Nat → List Node → TreeState → NodeRead
  | 0, _, _ => none
  | fuel + 1, items, s => do
    match ← s.peek? with
    | .blockEntry =>
      let (item, s) ← nodeUnless? fuel [.blockEntry, .key, .value, .blockEnd] true false s.skip
      indentlessSequence? fuel (item :: items) s
    | _ => some (.sequence items.reverse, s)

def blockMapping? : Nat → List (Node × Node) → TreeState → NodeRead
  | 0, _, _ => none
  | fuel + 1, entries, s => do
    match ← s.peek? with
    | .key =>
      let (key, s) ← nodeUnless? fuel [.key, .value, .blockEnd] true true s.skip
      match ← s.peek? with
      | .value =>
        let (value, s) ← nodeUnless? fuel [.key, .value, .blockEnd] true true s.skip
        blockMapping? fuel ((key, value) :: entries) s
      | _ => blockMapping? fuel ((key, emptyNode) :: entries) s
    | .blockEnd => some (.mapping entries.reverse, s.skip)
    | _ => none

/-- The items of a sequence in brackets. -/
def flowSequence? : Nat → Bool → List Node → TreeState → NodeRead
  | 0, _, _, _ => none
  | fuel + 1, first, items, s => do
    match ← s.peek? with
    | .flowSequenceEnd => some (.sequence items.reverse, s.skip)
    | t =>
      let s ← if first then some s else if t == .flowEntry then some s.skip else none
      match ← s.peek? with
      | .flowSequenceEnd => some (.sequence items.reverse, s.skip)
      | .key =>
        let (pair, s) ← flowPair? fuel s.skip
        flowSequence? fuel false (pair :: items) s
      | _ =>
        let (item, s) ← node? fuel false false s
        flowSequence? fuel false (item :: items) s

/-- A single entry in a sequence in brackets, which is a mapping of its own. If its key is left
out, the token in its place goes with it. -/
def flowPair? : Nat → TreeState → NodeRead
  | 0, _ => none
  | fuel + 1, s => do
    let t ← s.peek?
    let (key, s) ←
      if isOneOf t [.value, .flowEntry, .flowSequenceEnd] then some (emptyNode, s.skip)
      else node? fuel false false s
    match ← s.peek? with
    | .value =>
      let (value, s) ← nodeUnless? fuel [.flowEntry, .flowSequenceEnd] false false s.skip
      some (.mapping [(key, value)], s)
    | _ => some (.mapping [(key, emptyNode)], s)

/-- The entries of a mapping in brackets. -/
def flowMapping? : Nat → Bool → List (Node × Node) → TreeState → NodeRead
  | 0, _, _, _ => none
  | fuel + 1, first, entries, s => do
    match ← s.peek? with
    | .flowMappingEnd => some (.mapping entries.reverse, s.skip)
    | t =>
      let s ← if first then some s else if t == .flowEntry then some s.skip else none
      match ← s.peek? with
      | .flowMappingEnd => some (.mapping entries.reverse, s.skip)
      | .key =>
        let (key, s) ← nodeUnless? fuel [.value, .flowEntry, .flowMappingEnd] false false s.skip
        match ← s.peek? with
        | .value =>
          let (value, s) ← nodeUnless? fuel [.flowEntry, .flowMappingEnd] false false s.skip
          flowMapping? fuel false ((key, value) :: entries) s
        | _ => flowMapping? fuel false ((key, emptyNode) :: entries) s
      | _ =>
        let (key, s) ← node? fuel false false s
        flowMapping? fuel false ((key, emptyNode) :: entries) s

end

/-- The directives before a document: at most one version, which must be the known one, and
handles that do not repeat. -/
def directives? : Nat → Bool → TreeState → Option TreeState
  | 0, _, _ => none
  | fuel + 1, versioned, s => do
    match ← s.peek? with
    | .versionDirective major minor =>
      if !versioned && major == 1 && minor == 1 then directives? fuel true s.skip else none
    | .tagDirective handle expansion =>
      if (s.handles.lookup handle).isSome then none
      else
        let skipped := s.skip
        directives? fuel versioned
          { skipped with handles := skipped.handles ++ [(handle, expansion)] }
    | _ => some s

/-- The handles that need no directive. -/
def defaultHandles : List (String × String) := [("!", "!"), ("!!", standardTags)]

/-- The first document of a stream of tokens: nothing if there is none. The fuel bounds how many
nodes and entries there are. -/
def documentOf? (fuel : Nat) (s : TreeState) : Option (Option Node) := do
  let t ← s.peek?
  match t with
  | .streamEnd => some none
  | .versionDirective _ _ | .tagDirective _ _ | .documentStart =>
    let s ← directives? fuel false s
    if (← s.peek?) == .documentStart then
      let s := { s.skip with handles := s.handles ++ defaultHandles }
      let (n, s) ← match ← s.peek? with
        | .versionDirective _ _ | .tagDirective _ _ | .documentStart | .documentEnd
        | .streamEnd => some (emptyNode, s)
        | _ => node? fuel true false s
      let _ ← s.peek?
      some (some n)
    else none
  | _ =>
    let (n, s) ← node? fuel true false { s with handles := defaultHandles }
    let _ ← s.peek?
    some (some n)

/-- The tree of the first document in the data: nothing if the data holds no document. -/
def Node.parse? (data : List UInt8) : Option (Option Node) := do
  let cs ← documentChars? data
  let tokens := Token.ofChars cs
  documentOf? (4 * tokens.length + 8) ⟨tokens, [], []⟩

end Savefile.Yaml
