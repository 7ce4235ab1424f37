/-! # Nodes

The tree of a document. Scalars keep their source text beside a tag; an alias is a node of its
own, which is not replaced by what it stands for.
-/
namespace Savefile.Yaml

/-- A node of a document's tree. -/
inductive Node where
  | scalar (tag value : String)
  | sequence (items : List Node)
  /-- Keys with their values in order; keys may repeat. -/
  | mapping (entries : List (Node × Node))
  | alias (name : String)
  deriving Inhabited

/-- The tag of absent values. -/
def nullTag : String := "!!null"

/-- The tag of truth values. -/
def boolTag : String := "!!bool"

def textTag : String := "!!str"

/-- The tag of encoded bytes. -/
def binaryTag : String := "!!binary"

/-- What the short mark of the standard tags stands for. -/
def standardTags : String := "tag:yaml.org,2002:"

/-- Writes a standard tag with its short mark. -/
def shortTag (tag : String) : String :=
  if tag.startsWith standardTags then "!!" ++ (tag.drop standardTags.length).toString else tag

/-- The spellings of the absent value. -/
def nullTexts : List String := ["", "~", "null", "Null", "NULL"]

/-- The spellings of a truth value that plain scalars have. -/
def plainTruth? : String → Option Bool
  | "true" | "True" | "TRUE" => some true
  | "false" | "False" | "FALSE" => some false
  | _ => none

/-- The further spellings of a truth value, for text where one is asked for. -/
def wordTruth? : String → Option Bool
  | "y" | "Y" | "yes" | "Yes" | "YES" | "on" | "On" | "ON" => some true
  | "n" | "N" | "no" | "No" | "NO" | "off" | "Off" | "OFF" => some false
  | _ => none

/-- The tag of a plain scalar without one. Numbers count as text here. -/
def plainTag (value : String) : String :=
  if nullTexts.contains value then nullTag
  else if (plainTruth? value).isSome then boolTag
  else textTag

namespace Node

/-- The text by which a node is found as a key. -/
def keyText : Node → String
  | .scalar _ value => value
  | .alias name => name
  | _ => ""

/-- The value of the first entry with the given key, if the node is a mapping. -/
def get? (key : String) : Node → Option Node
  | .mapping entries => (entries.find? fun e => e.1.keyText == key).map Prod.snd
  | _ => none

/-- Whether the node is an absent value. -/
def isNull : Node → Bool
  | .scalar tag _ => tag == nullTag
  | _ => false

/-- The truth value that a scalar stands for; an absent value is false. Text may use further
spellings, and a tag must agree with the text. -/
def truth? : Node → Option Bool
  | .scalar tag value =>
    if tag == textTag || tag == binaryTag then wordTruth? value
    else if tag == boolTag then plainTruth? value
    else if tag == nullTag then if nullTexts.contains value then some false else none
    else none
  | _ => none

end Node

end Savefile.Yaml
