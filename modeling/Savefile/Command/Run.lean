import Savefile.Codec.Decode
import Savefile.Codec.Encode
import Savefile.Codec.FromJson
import Savefile.Command.Format
import Savefile.Command.Help
import Savefile.Command.Script
import Savefile.Schema.Compact
import Savefile.Schema.Document

/-! # Commands

A command loads a schema, reads its input and gives an outcome: what it prints, what it notes, and
the error or the fault that stopped it, if one did.
-/
namespace Savefile.Command

/-- Why a command ends early. -/
inductive Error where
  | line (e : LineError)
  | bothSchemas
  | noSchema
  | schemaFile (path : String) (e : FileError)
  | schemaDocument (path : String) (e : SchemaError)
  | compactSchema (e : SchemaError)
  | compile (e : CompileError)
  | inputFile (path : String) (e : FileError)
  | packing (e : PackingError)
  | decode (e : DecodeError)
  | json (e : FromJsonError)
  | encode (e : EncodeError)

/-- The words before a schema error of a document. -/
def documentWords (path : String) : String := "loading schema " ++ path ++ ": "

/-- The words before a schema error of a compact format. -/
def compactWords : String := "parsing compact schema: "

/-- The text of the error. -/
def Error.message : Error → String
  | .line e => e.message
  | .bothSchemas => "--schema and --compact are mutually exclusive"
  | .noSchema => "one of --schema or --compact is required"
  | .schemaFile path e => documentWords path ++ "failed to read schema: " ++ e.message path
  | .schemaDocument path e => documentWords path ++ e.message
  | .compactSchema e => compactWords ++ e.message
  | .compile e => e.message
  | .inputFile path e => "reading " ++ path ++ ": " ++ e.message path
  | .packing e => e.message
  | .decode e => e.message
  | .json e => e.message
  | .encode e => e.message

/-- What a command leaves behind. -/
structure Outcome where
  output : List UInt8
  /-- The notes in order. -/
  notes : List Note
  stop : Option (Stop Error)

namespace Outcome

/-- A stop before anything was printed. -/
def stopped (notes : List Note) (stop : Stop Error) : Outcome := ⟨[], notes, some stop⟩

/-- An error before anything was printed. -/
def failure (notes : List Note) (e : Error) : Outcome := stopped notes (.error e)

/-- Something printed. -/
def success (notes : List Note) (output : List UInt8) : Outcome := ⟨output, notes, none⟩

/-- A text printed. -/
def ofText (text : String) : Outcome := success [] (Text.encode text.toList)

end Outcome

def layoutLines (s : Schema) : List String :=
  let context := s.root.contextFields.map (·.id)
  let typeLines := fun (t : RecordType) =>
    ("type " ++ t.name) :: t.fields.map fun f => "  " ++ f.describe
  [ "schema " ++ s.root.name ++ " (" ++ s.order.name ++ ")",
    "context: " ++ (if context.isEmpty then "(empty)" else ", ".intercalate context) ]
    ++ (s.types ++ [s.root]).flatMap typeLines

/-- Shows the layout of a schema. -/
def check (c : Codec) : Outcome :=
  .ofText (String.join ((layoutLines c.schema).map fun line => line ++ "\n"))

/-- Shows the record that save data holds. -/
def decode (c : Codec) (st : Settings) (data : List UInt8) : Outcome :=
  match (Packing.ofSettings st.format st.checksum).bind fun p => p.unpack data with
  | .error e => .failure [] (.packing e)
  | .ok (bytes, version) =>
    match c.decodeFrom (.ofBytes bytes) with
    | .failed stop s => .stopped s.notes.reverse (stop.map .decode)
    | .done r s =>
      let notes := s.notes.reverse ++ [.decodedSave version s.offset (bytes.length - s.offset)]
      .success notes (Packing.lineBytes r.toJson.indented.toList)

/-- Makes save data from a record given as JSON. -/
def encode (c : Codec) (st : Settings) (data : List UInt8) : Outcome :=
  match c.recordFromJson c.schema.root data with
  | .error e => .failure [] (.json e)
  | .ok r =>
    match c.encodeTo .memory (some r) with
    | .failed stop out => .stopped out.notes.reverse (stop.map .encode)
    | .done _ out =>
      let packed := (Packing.ofSettings st.format st.checksum).bind fun p =>
        p.pack out.bytes st.saveVersion
      match packed with
      | .error e => .failure out.notes.reverse (.packing e)
      | .ok bytes => .success out.notes.reverse bytes

/-- Reads a record, writes it, reads it again, and tells whether both are equal. -/
def roundtrip (c : Codec) (st : Settings) (data : List UInt8) : Outcome :=
  match Packing.ofSettings st.format st.checksum with
  | .error e => .failure [] (.packing e)
  | .ok p =>
    match p.unpack data with
    | .error e => .failure [] (.packing e)
    | .ok (bytes, version) =>
      match c.decodeFrom (.ofBytes bytes) with
      | .failed stop s => .stopped s.notes.reverse (stop.map .decode)
      | .done first s =>
        match c.encodeTo .memory (some first) with
        | .failed stop out =>
          .stopped (s.notes.reverse ++ out.notes.reverse) (stop.map .encode)
        | .done _ out =>
          let notes := s.notes.reverse ++ out.notes.reverse
          match (p.pack out.bytes version).bind p.unpack with
          | .error e => .failure notes (.packing e)
          | .ok (bytes, _) =>
            match c.decodeFrom (.ofBytes bytes) with
            | .failed stop s => .stopped (notes ++ s.notes.reverse) (stop.map .decode)
            | .done second s =>
              .success (notes ++ s.notes.reverse)
                (Packing.lineBytes (toString (first.equal second)).toList)

def codecOf (st : Settings) (s : Schema) : Except Error Codec :=
  (Codec.compile (some s) ⟨st.lenientCounts, none⟩).mapError .compile

def loadCodec [Language] (st : Settings) (next : Except Error Codec → Script Outcome) :
    Script Outcome :=
  if st.schema.isEmpty && st.compact.isEmpty then next (.error .noSchema)
  else if st.schema.isEmpty then
    next (((Schema.parseCompact st.compact).mapError .compactSchema).bind (codecOf st))
  else if st.compact.isEmpty then
    .readFile st.schema fun content =>
      match content with
      | .error e => next (.error (.schemaFile st.schema e))
      | .ok bytes =>
        next (((Schema.parse bytes).mapError (.schemaDocument st.schema)).bind (codecOf st))
  else next (.error .bothSchemas)

/-- Reads the input that an argument names: a file, or standard input for a dash or nothing. -/
def readData (argument : Option String) (next : Except Error (List UInt8) → Script Outcome) :
    Script Outcome :=
  match argument with
  | none => .readInput fun bytes => next (.ok bytes)
  | some path =>
    if path == "-" then .readInput fun bytes => next (.ok bytes)
    else
      .readFile path fun content =>
        match content with
        | .error e => next (.error (.inputFile path e))
        | .ok bytes => next (.ok bytes)

/-- What a verb does with its input. -/
def perform (v : Verb) (c : Codec) (st : Settings) (data : List UInt8) : Outcome :=
  match v with
  | .check => check c
  | .decode => decode c st data
  | .encode => encode c st data
  | .roundtrip => roundtrip c st data

/-- Carries out an invocation. -/
def runInvocation [Language] (i : Invocation) : Script Outcome :=
  loadCodec i.settings fun loaded =>
    match loaded with
    | .error e => .done (.failure [] e)
    | .ok c =>
      if i.verb = .check then .done (check c)
      else
        readData i.argument fun input =>
          match input with
          | .error e => .done (.failure [] e)
          | .ok data => .done (perform i.verb c i.settings data)

/-- What is printed where notes and errors go: notes only if they are wanted. -/
def Outcome.shownNotes (o : Outcome) (st : Settings) : Outcome :=
  if st.verbose then o else { o with notes := [] }

/-- Changes the result of a script. -/
def Script.map {α β : Type} (f : α → β) : Script α → Script β
  | .done a => .done (f a)
  | .readFile path next => .readFile path fun content => (next content).map f
  | .readInput next => .readInput fun bytes => (next bytes).map f

/-- Carries out a command line. -/
def run [Language] (args : List String) : Script Outcome :=
  match parseLine args with
  | .error e => .done (.failure [] (.line e))
  | .ok (.describe topic) => .done (.ofText topic.description)
  | .ok (.run i) => (runInvocation i).map fun o => o.shownNotes i.settings

def Outcome.noteText (o : Outcome) : String :=
  String.join (o.notes.map fun n => n.line ++ "\n")

/-- The line that tells of an error. -/
def Error.report (e : Error) : String := programName ++ ": " ++ e.message ++ "\n"

end Savefile.Command
