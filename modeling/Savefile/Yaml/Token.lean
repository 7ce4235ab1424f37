/-! # Tokens of documents

Indentation shows up as tokens that start and end a block, so that the tokens alone determine
the tree.
-/
namespace Savefile.Yaml

/-- A word of a document. -/
inductive Token where
  | versionDirective (major minor : Nat)
  | tagDirective (handle expansion : String)
  | documentStart
  | documentEnd
  | streamEnd
  | blockSequenceStart
  | blockMappingStart
  | blockEnd
  | blockEntry
  | flowSequenceStart
  | flowSequenceEnd
  | flowMappingStart
  | flowMappingEnd
  | flowEntry
  | key
  | value
  | alias (name : String)
  | anchor (name : String)
  | tag (handle suffix : String)
  | scalar (text : String) (plain : Bool)
  /-- Stands for text that is no token. -/
  | broken
  deriving DecidableEq, Inhabited

end Savefile.Yaml
