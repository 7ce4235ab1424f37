import Savefile.Text.Quoted

/-! # Schema errors

What can be wrong with a schema. An error has the path of the faulty part and its cause.
-/
namespace Savefile

/-- What is wrong with a schema. -/
inductive SchemaProblem where
  | unparsableDocument
  | documentNotMapping
  | metaNotMapping
  | invalidRootName
  | typesNotMapping
  | invalidTypeName
  | shadowsPrimitive (name : String)
  | fieldsNotSequence
  | fieldNotMapping
  | missingItems
  | missingKey (key : String)
  | emptyText
  | invalidIdentifier (id : String)
  | invalidTypeText (base : String)
  | tooManyMarkers
  | arrayNeedsRepeat
  | arrayNotOutermost
  | nullableNeedsIf
  | duplicateNullable
  | advanceNotBoolean
  | emptyExpression
  | unparsableExpression (source : String)
  | repetitionNotText
  | unparsableRepetition (text : String)
  | unknownRepetition (kind : String)
  | emptyCount
  | unparsableCount (source : String)
  | duplicateField (id : String)
  | duplicateType
  | rootNameClash (name : String)
  | undeclaredType (name : String)
  | noFixedWidth (name : String)
  /-- The types on the way from a type back to itself. -/
  | containsItself (chain : List String)
  | invalidToken (token : String)
  | unknownFormatCharacter (c : Char)
  | invalidCount (digits : String)
  | noFields
  deriving DecidableEq

/-- The text of a problem. -/
def SchemaProblem.message : SchemaProblem → String
  | .unparsableDocument => "failed to parse document"
  | .documentNotMapping => "document must be a mapping"
  | .metaNotMapping => "must be a mapping"
  | .invalidRootName => "invalid identifier"
  | .typesNotMapping => "must be a mapping of type name to fields"
  | .invalidTypeName => "invalid type name"
  | .shadowsPrimitive name => "type name shadows primitive " ++ Text.quoted name
  | .fieldsNotSequence => "must be a sequence of field descriptors"
  | .fieldNotMapping => "field descriptor must be a mapping"
  | .missingItems => "missing required key"
  | .missingKey key => "missing required key " ++ Text.quoted key
  | .emptyText => "must be a non-empty string"
  | .invalidIdentifier id => "invalid identifier " ++ Text.quoted id
  | .invalidTypeText base => "invalid type name " ++ Text.quoted base
  | .tooManyMarkers => "too many type markers"
  | .arrayNeedsRepeat => "array type requires repeat"
  | .arrayNotOutermost => "array marker must be outermost"
  | .nullableNeedsIf => "nullable type requires if"
  | .duplicateNullable => "duplicate nullable marker"
  | .advanceNotBoolean => "must be a boolean"
  | .emptyExpression => "expression must be a non-empty string"
  | .unparsableExpression source => "unparsable expression " ++ Text.quoted source
  | .repetitionNotText => "must be a string like Count(<expr>)"
  | .unparsableRepetition text => "unparsable repetition " ++ Text.quoted text
  | .unknownRepetition kind => "unknown repetition kind " ++ Text.quoted kind
  | .emptyCount => "empty count expression"
  | .unparsableCount source => "unparsable count expression " ++ Text.quoted source
  | .duplicateField id => "duplicate field id " ++ Text.quoted id
  | .duplicateType => "duplicate type name"
  | .rootNameClash name => "root name " ++ Text.quoted name ++ " clashes with a declared type"
  | .undeclaredType name => "undeclared type " ++ Text.quoted name
  | .noFixedWidth name => "type " ++ Text.quoted name ++ " has no fixed width"
  | .containsItself chain =>
    "type contains itself unconditionally: " ++ " -> ".intercalate chain
  | .invalidToken token => "invalid token " ++ Text.quoted token
  | .unknownFormatCharacter c => "unknown format character: " ++ String.ofList [c]
  | .invalidCount digits => "invalid count " ++ Text.quoted digits
  | .noFields => "no fields"

/-- A problem at a place of a schema; the path is empty for the whole of it. -/
structure SchemaError where
  path : String
  problem : SchemaProblem
  deriving DecidableEq

def SchemaError.message (e : SchemaError) : String :=
  if e.path.isEmpty then "malformed schema: " ++ e.problem.message
  else "malformed schema at " ++ e.path ++ ": " ++ e.problem.message

end Savefile
