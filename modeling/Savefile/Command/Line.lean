import Savefile.Command.Flag
import Savefile.Command.Suggestion

/-! # Command lines

The first argument that is no flag, nor the value of one, names what to do. The flags that are
known then depend on it.
-/
namespace Savefile.Command

def programName : String := "savecodec"

/-- What can be done. -/
inductive Verb where
  | check
  | decode
  | encode
  | roundtrip
  deriving DecidableEq

namespace Verb

/-- Everything that can be done. -/
def all : List Verb := [.check, .decode, .encode, .roundtrip]

def name : Verb → String
  | .check => "check"
  | .decode => "decode"
  | .encode => "encode"
  | .roundtrip => "roundtrip"

/-- The flags that a verb knows, help aside. -/
def flags : Verb → List Flag
  | .check => [.verbose, .schema, .compact, .lenientCounts]
  | .decode | .roundtrip => [.verbose, .schema, .compact, .lenientCounts, .format, .checksum]
  | .encode =>
    [.verbose, .schema, .compact, .lenientCounts, .format, .checksum, .saveVersion]

/-- How many arguments a verb takes at most, flags aside. -/
def argumentLimit : Verb → Nat
  | .check => 0
  | _ => 1

end Verb

/-- What a command line asks for. -/
inductive Topic where
  /-- Nothing that can be done: a description of the program. -/
  | program
  | verb (v : Verb)
  /-- A description of a verb. -/
  | help
  | completion
  deriving DecidableEq

/-- The name under which a topic that has subjects of its own is known. -/
def helpName : String := "help"

/-- The name of the topic of scripts for shells. -/
def completionName : String := "completion"

def Topic.ofName? (name : String) : Option Topic :=
  match Verb.all.find? fun v => v.name == name with
  | some v => some (.verb v)
  | none =>
    if name == helpName then some .help
    else if name == completionName then some .completion
    else none

/-- The flags that a topic knows, help aside. -/
def Topic.flags : Topic → List Flag
  | .verb v => v.flags
  | _ => [.verbose]

/-- What an argument is to someone who looks for a topic. -/
inductive Role where
  /-- Two dashes. -/
  | stop
  /-- A flag whose value is the next argument. -/
  | flagWithValue
  /-- Another flag. -/
  | flag
  | word

/-- The role of an argument. A flag that is not known is taken to have a value. -/
def roleOf (known : List Flag) (s : String) : Role :=
  match s.toList with
  | ['-', '-'] => .stop
  | '-' :: '-' :: cs =>
    if cs.contains '=' || ((flagNamed? known (String.ofList cs)).map Flag.isSwitch).getD false then
      .flag
    else .flagWithValue
  | ['-', c] =>
    if c == '=' || 0x80 ≤ c.toNat || ((flagLettered? known c).map Flag.isSwitch).getD false then
      .flag
    else .flagWithValue
  | '-' :: _ => .flag
  | _ => .word

/-- The arguments that are neither flags nor their values. A flag whose value would be the last
argument, or missing, ends the search. -/
def wordsOf (known : List Flag) : List String → List String
  | [] => []
  | s :: rest =>
    match roleOf known s with
    | .stop => []
    | .flagWithValue =>
      match rest with
      | _ :: next :: more => wordsOf known (next :: more)
      | _ => []
    | .flag => wordsOf known rest
    | .word => if s.isEmpty then wordsOf known rest else s :: wordsOf known rest

/-- The arguments without the first word of the given text. -/
def withoutWord (known : List Flag) (word : String) : List String → List String
  | [] => []
  | s :: rest =>
    match roleOf known s with
    | .stop => s :: rest
    | .flagWithValue =>
      match rest with
      | value :: more => s :: value :: withoutWord known word more
      | [] => [s]
    | .flag => s :: withoutWord known word rest
    | .word => if s == word then rest else s :: withoutWord known word rest

/-- Why a command line is refused. -/
inductive LineError where
  | flag (e : FlagError)
  | unknownCommand (word place suggested : String)
  | tooManyArguments (limit count : Nat)
  deriving DecidableEq

/-- The text of the error. -/
def LineError.message : LineError → String
  | .flag e => e.message
  | .unknownCommand word place suggested =>
    "unknown command " ++ Text.quoted word ++ " for " ++ Text.quoted place ++ suggested
  | .tooManyArguments limit count =>
    "accepts at most " ++ toString limit ++ " arg(s), received " ++ toString count

/-- What is to be done: a verb with its settings and at most one argument. -/
structure Invocation where
  verb : Verb
  settings : Settings
  argument : Option String

/-- What a command line comes to. -/
inductive Request where
  | run (i : Invocation)
  | describe (topic : Topic)

/-- The names that are suggested for one that is not known. -/
def suggestedNames : List String := Verb.all.map Verb.name ++ [completionName]

/-- Checks the arguments of a verb. -/
def invocation (v : Verb) (st : Settings) (words : List String) : Except LineError Request :=
  if st.help then .ok (.describe (.verb v))
  else if words.length ≤ v.argumentLimit then .ok (.run ⟨v, st, words.head?⟩)
  else if v.argumentLimit = 0 then
    .error (.unknownCommand (words.headD "") (programName ++ " " ++ v.name) "")
  else .error (.tooManyArguments v.argumentLimit words.length)

/-- The request of a topic with the arguments after its name. -/
def requestOf (topic : Topic) (args : List String) : Except LineError Request :=
  match applyFlags (.help :: topic.flags) args .initial [] with
  | .error e => .error (.flag e)
  | .ok (st, words) =>
    match topic with
    | .verb v => invocation v st words
    | .help =>
      match words.head?.bind Topic.ofName? with
      | some subject => .ok (.describe subject)
      | none => .ok (.describe .program)
    | topic => .ok (.describe topic)

def parseLine (args : List String) : Except LineError Request :=
  let known := Topic.program.flags
  match wordsOf known args with
  | [] => requestOf .program args
  | word :: _ =>
    match Topic.ofName? word with
    | none => .error (.unknownCommand word programName (suggestions word suggestedNames))
    | some topic => requestOf topic (withoutWord known word args)

end Savefile.Command
