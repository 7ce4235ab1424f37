import Savefile.Decimal.Spelling
import Savefile.Text.Quoted
import Savefile.Text.Utf8

/-! # Flags

Flags are given in a long form, with the value after an equals sign or in the next argument, or as
letters after one dash. A switch needs no value. Flags and other arguments may be mixed, and two
dashes end the flags.
-/
namespace Savefile.Command

/-- A flag of the command line. -/
inductive Flag where
  | verbose
  | help
  | schema
  | compact
  | lenientCounts
  | format
  | checksum
  | saveVersion
  deriving DecidableEq

namespace Flag

def name : Flag → String
  | .verbose => "verbose"
  | .help => "help"
  | .schema => "schema"
  | .compact => "compact"
  | .lenientCounts => "lenient-counts"
  | .format => "format"
  | .checksum => "checksum"
  | .saveVersion => "save-version"

def letter? : Flag → Option Char
  | .verbose => some 'v'
  | .help => some 'h'
  | .schema => some 's'
  | _ => none

/-- Whether a flag needs no value. -/
def isSwitch : Flag → Bool
  | .verbose | .help | .lenientCounts | .checksum => true
  | _ => false

/-- The flag as messages give it. -/
def display (f : Flag) : String :=
  match f.letter? with
  | some c => "-" ++ String.ofList [c] ++ ", --" ++ f.name
  | none => "--" ++ f.name

end Flag

/-- What the flags say. -/
structure Settings where
  verbose : Bool
  help : Bool
  schema : String
  compact : String
  lenientCounts : Bool
  format : String
  checksum : Bool
  saveVersion : Int

/-- The settings without any flag. -/
def Settings.initial : Settings := ⟨false, false, "", "", false, "envelope", false, 0⟩

/-- Why flags are refused. -/
inductive FlagError where
  | badSyntax (argument : String)
  | unknown (name : String)
  | unknownLetter (letter : Char) (letters : String)
  | needsValue (argument : String)
  | letterNeedsValue (letter : Char) (letters : String)
  | invalid (flag : Flag) (reader value : String) (cause : Decimal.NumberError)
  deriving DecidableEq

/-- The text of the error. -/
def FlagError.message : FlagError → String
  | .badSyntax argument => "bad flag syntax: " ++ argument
  | .unknown name => "unknown flag: --" ++ name
  | .unknownLetter c letters =>
    "unknown shorthand flag: " ++ Text.quotedChar c ++ " in -" ++ letters
  | .needsValue argument => "flag needs an argument: " ++ argument
  | .letterNeedsValue c letters =>
    "flag needs an argument: " ++ Text.quotedChar c ++ " in -" ++ letters
  | .invalid flag reader value cause =>
    "invalid argument " ++ Text.quoted value ++ " for " ++ Text.quoted flag.display
      ++ " flag: strconv." ++ reader ++ ": parsing " ++ Text.quoted value ++ ": " ++ cause.message

/-- The truth value that a text spells. -/
def readSwitch? : String → Option Bool
  | "1" | "t" | "T" | "true" | "TRUE" | "True" => some true
  | "0" | "f" | "F" | "false" | "FALSE" | "False" => some false
  | _ => none

namespace Settings

/-- Turns a switch on or off. -/
def turn (st : Settings) (b : Bool) : Flag → Settings
  | .verbose => { st with verbose := b }
  | .help => { st with help := b }
  | .lenientCounts => { st with lenientCounts := b }
  | .checksum => { st with checksum := b }
  | _ => st

def set (st : Settings) (f : Flag) (value : String) : Except FlagError Settings :=
  match f with
  | .schema => .ok { st with schema := value }
  | .compact => .ok { st with compact := value }
  | .format => .ok { st with format := value }
  | .saveVersion =>
    match Decimal.readAnySigned 64 value.toList with
    | .ok n => .ok { st with saveVersion := n }
    | .error cause => .error (.invalid f "ParseInt" value cause)
  | f =>
    match readSwitch? value with
    | some b => .ok (st.turn b f)
    | none => .error (.invalid f "ParseBool" value .syntaxError)

end Settings

/-- Splits at the first equals sign. -/
def splitValue (cs : List Char) : List Char × Option (List Char) :=
  match cs.span (· != '=') with
  | (name, _ :: value) => (name, some value)
  | (name, []) => (name, none)

/-- The flag with a name among the known ones. -/
def flagNamed? (known : List Flag) (name : String) : Option Flag :=
  known.find? fun f => f.name == name

/-- The flag with a letter among the known ones. -/
def flagLettered? (known : List Flag) (c : Char) : Option Flag :=
  known.find? fun f => f.letter? == some c

/-- Applies a flag in its long form, given without its dashes. The result tells whether the next
argument was its value. -/
def applyLong (known : List Flag) (body : List Char) (next : Option String) (st : Settings) :
    Except FlagError (Settings × Bool) :=
  let argument := String.ofList ('-' :: '-' :: body)
  if body.head? == some '-' || body.head? == some '=' then .error (.badSyntax argument)
  else
    let (chars, value) := splitValue body
    let name := String.ofList chars
    match flagNamed? known name with
    | none => .error (.unknown name)
    | some f =>
      match value with
      | some v => (st.set f (String.ofList v)).map fun st => (st, false)
      | none =>
        if f.isSwitch then .ok (st.turn true f, false)
        else
          match next with
          | some v => (st.set f v).map fun st => (st, true)
          | none => .error (.needsValue argument)

def firstByteOf (c : Char) : Char :=
  match Text.encode [c] with
  | b :: _ => Char.ofNat b.toNat
  | [] => c

/-- Applies flags given as letters. The result tells whether the next argument was a value. -/
def applyLetters (known : List Flag) (next : Option String) :
    List Char → Settings → Except FlagError (Settings × Bool)
  | [], st => .ok (st, false)
  | c :: cs, st =>
    let letters := String.ofList (c :: cs)
    match flagLettered? known c with
    | none => .error (.unknownLetter (firstByteOf c) letters)
    | some f =>
      match cs with
      | '=' :: v :: vs => (st.set f (String.ofList (v :: vs))).map fun st => (st, false)
      | cs =>
        if f.isSwitch then applyLetters known next cs (st.turn true f)
        else if !cs.isEmpty then (st.set f (String.ofList cs)).map fun st => (st, false)
        else
          match next with
          | some v => (st.set f v).map fun st => (st, true)
          | none => .error (.letterNeedsValue c letters)

/-- Applies the flags among arguments in order, and collects the others, newest first. -/
def applyFlags (known : List Flag) :
    List String → Settings → List String → Except FlagError (Settings × List String)
  | [], st, others => .ok (st, others.reverse)
  | s :: rest, st, others =>
    match s.toList with
    | ['-', '-'] => .ok (st, others.reverse ++ rest)
    | '-' :: c :: cs =>
      let applied := if c == '-' then applyLong known cs rest.head? st
        else applyLetters known rest.head? (c :: cs) st
      match applied, rest with
      | .error e, _ => .error e
      | .ok (st, true), _ :: rest => applyFlags known rest st others
      | .ok (st, _), rest => applyFlags known rest st others
    | _ => applyFlags known rest st (s :: others)

end Savefile.Command
