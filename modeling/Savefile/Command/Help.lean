import Savefile.Command.Line

/-! # Descriptions of commands

Each verb is described by a text, the form of its command line and its flags.
-/
namespace Savefile.Command

def Flag.purpose : Flag → String
  | .verbose => "log every decoded and encoded field"
  | .help => "show this description"
  | .schema => "YAML or JSON schema file"
  | .compact => "compact schema such as \"<H:version B:count 3I:ids\""
  | .lenientCounts =>
    "encode repeated fields by list length without checking their count expression"
  | .format => "save data format (envelope|raw|hex) (default \"envelope\")"
  | .checksum => "save data carries a trailing big-endian CRC32 of the record bytes"
  | .saveVersion => "version tag written into the save envelope"

/-- A flag with what it is for, on a line. -/
def Flag.helpLine (f : Flag) : String :=
  let value := if f.isSwitch then "" else if f = .saveVersion then " int" else " string"
  let start := (if f.letter?.isSome then "  " else "      ") ++ f.display ++ value
  start ++ String.ofList (List.replicate (28 - start.length) ' ') ++ f.purpose

/-- What a verb does, on a line. -/
def Verb.summary : Verb → String
  | .check => "validate a schema and print its layout"
  | .decode => "decode save data to JSON"
  | .encode => "encode a JSON record into save data"
  | .roundtrip => "check that save data survives decode and re-encode"

/-- What a verb takes besides flags. -/
def Verb.argumentForm : Verb → String
  | .check => ""
  | .encode => " [file.json]"
  | _ => " [file]"

def Verb.helpLine (v : Verb) : String :=
  "  " ++ v.name ++ String.ofList (List.replicate (12 - v.name.length) ' ') ++ v.summary

/-- Lines, each with its end. -/
def joinLines (lines : List String) : String := String.join (lines.map fun line => line ++ "\n")

def programDescription : String :=
  joinLines
    ([ programName ++ " reads a schema describing a binary record layout and uses it to",
        "convert save data between its stored form and JSON.", "", "Usage:",
        "  " ++ programName ++ " [command]", "", "Available Commands:" ]
      ++ Verb.all.map Verb.helpLine
      ++ ["", "Flags:"] ++ [Flag.help.helpLine, Flag.verbose.helpLine])

def verbDescription (v : Verb) : String :=
  joinLines
    ([ v.summary, "", "Usage:",
        "  " ++ programName ++ " " ++ v.name ++ v.argumentForm ++ " [flags]", "", "Flags:" ]
      ++ (Flag.help :: v.flags).map Flag.helpLine)

def Topic.description : Topic → String
  | .verb v => verbDescription v
  | _ => programDescription

end Savefile.Command
