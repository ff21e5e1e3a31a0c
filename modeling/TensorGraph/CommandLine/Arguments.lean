import TensorGraph.Pipeline.Basic

/-!
The arguments of the command. They are read from left to right, and the first thing wrong decides
the error; a request for help or for the version is answered where it stands. A value follows its
option as the next argument or after an equals sign, and after `--` nothing is an option.
-/
namespace TensorGraph.CommandLine

structure Arguments where
  input : Option String := none
  passes : Option (List String) := none
  config : Option String := none
  level : Option Level := none
  output : Option String := none
  emitListing : Bool := false
  listPasses : Bool := false
deriving DecidableEq, Repr

inductive UsageError where
  | unknownOption (arg : String)
  | missingValue (option : String)
  | emptyValue (option : String)
  | unexpectedValue (option : String)
  | repeated (option : String)
  | unknownLevel (text : String)
  | unexpectedArgument (arg : String)
  | missingInput
  | passesAndConfig
deriving DecidableEq, Repr

def UsageError.message : UsageError → String
  | .unknownOption arg | .unexpectedArgument arg => s!"unexpected argument '{arg}' found"
  | .missingValue option => s!"a value is required for '{option}' but none was supplied"
  | .emptyValue option => s!"the value of '{option}' must not be empty"
  | .unexpectedValue option => s!"unexpected value for '{option}' found; no more were expected"
  | .repeated option => s!"the argument '{option}' cannot be used multiple times"
  | .unknownLevel text => s!"invalid optimization level '{text}', expected 0, 1, or 2"
  | .missingInput => "the following required arguments were not provided: <INPUT>"
  | .passesAndConfig => "the argument '--passes' cannot be used with '--config'"

inductive Setting where
  | passes
  | config
  | level
  | output
deriving DecidableEq, Repr

inductive Switch where
  | emitListing
  | listPasses
  | help
  | version
deriving DecidableEq, Repr

inductive Request where
  | help
  | version
  | run (a : Arguments)
deriving DecidableEq, Repr

def Setting.name : Setting → String
  | .passes => "--passes"
  | .config => "--config"
  | .level => "--opt-level"
  | .output => "--output"

def Switch.name : Switch → String
  | .emitListing => "--emit-ir"
  | .listPasses => "--list-passes"
  | .help => "--help"
  | .version => "--version"

def setting? (name : String) : Option Setting :=
  [Setting.passes, .config, .level, .output].find? fun s => s.name = name

def switch? (name : String) : Option Switch :=
  [Switch.emitListing, .listPasses, .help, .version].find? fun s => s.name = name

def level? : String → Option Level
  | "0" => some .sweep
  | "1" => some .simplify
  | "2" => some .full
  | _ => none

/-- A value that is given once. -/
def once {α : Type} (option : String) (before : Option α) (value : α) :
    Except UsageError (Option α) :=
  if before.isSome then .error (.repeated option) else .ok (some value)

def fileName (option value : String) : Except UsageError String :=
  if value.isEmpty then .error (.emptyValue option) else .ok value

namespace Arguments

/-- Takes over an option with its value. Passes may be given several times, and several at once. -/
def set (a : Arguments) (s : Setting) (value : String) : Except UsageError Arguments := do
  match s with
  | .passes => return { a with passes := some (a.passes.getD [] ++ value.splitOn ",") }
  | .config =>
    let config ← once s.name a.config (← fileName s.name value)
    return { a with config }
  | .level =>
    match level? value with
    | none => .error (.unknownLevel value)
    | some level =>
      let level ← once s.name a.level level
      return { a with level }
  | .output =>
    let output ← once s.name a.output (← fileName s.name value)
    return { a with output }

def setInput (a : Arguments) (arg : String) : Except UsageError Arguments := do
  if a.input.isSome then .error (.unexpectedArgument arg)
  else return { a with input := some (← fileName "<INPUT>" arg) }

/-- Takes over an option without a value, or ends with what it asks for. -/
def turnOn (a : Arguments) : Switch → Except UsageError (Arguments ⊕ Request)
  | .emitListing =>
    if a.emitListing then .error (.repeated Switch.emitListing.name)
    else .ok (.inl { a with emitListing := true })
  | .listPasses =>
    if a.listPasses then .error (.repeated Switch.listPasses.name)
    else .ok (.inl { a with listPasses := true })
  | .help => .ok (.inr .help)
  | .version => .ok (.inr .version)

/-- What has to hold when everything is read. -/
def finish (a : Arguments) : Except UsageError Request :=
  if a.passes.isSome && a.config.isSome then .error .passesAndConfig
  else if a.input.isNone && !a.listPasses then .error .missingInput
  else .ok (.run a)

end Arguments

inductive Form where
  | separator
  | long (name : String) (value : Option String)
  | short (letter : Char) (rest : List Char)
  | plain
deriving DecidableEq, Repr

/-- An argument starts an option if it starts with a dash and is more than that. -/
def Form.of (arg : String) : Form :=
  match arg.toList with
  | ['-', '-'] => .separator
  | '-' :: '-' :: _ =>
    match arg.splitOn "=" with
    | name :: value :: more => .long name (some (String.intercalate "=" (value :: more)))
    | _ => .long arg none
  | '-' :: letter :: rest => .short letter rest
  | _ => .plain

/-- What follows a letter in the same argument is its value, with or without an equals sign. -/
def attached : List Char → Option String
  | [] => none
  | '=' :: value => some (String.ofList value)
  | value => some (String.ofList value)

def readPlain : List String → Arguments → Except UsageError Request
  | [], a => a.finish
  | arg :: rest, a => do readPlain rest (← a.setInput arg)

/-- Reads arguments; `open?` is an option whose value comes next. -/
def read : List String → Option Setting → Arguments → Except UsageError Request
  | [], some s, _ => .error (.missingValue s.name)
  | [], none, a => a.finish
  | arg :: rest, open?, a =>
    match open?, Form.of arg with
    | some s, .plain => do read rest none (← a.set s arg)
    | some s, _ => .error (.missingValue s.name)
    | none, .plain => do read rest none (← a.setInput arg)
    | none, .separator => readPlain rest a
    | none, .long name value =>
      match setting? name, switch? name, value with
      | some s, _, some value => do read rest none (← a.set s value)
      | some s, _, none => read rest (some s) a
      | none, some _, some _ => .error (.unexpectedValue name)
      | none, some switch, none => do
        match ← a.turnOn switch with
        | .inl a => read rest none a
        | .inr request => .ok request
      | none, none, _ => .error (.unknownOption arg)
    | none, .short 'o' more =>
      match attached more with
      | some value => do read rest none (← a.set .output value)
      | none => read rest (some .output) a
    | none, .short 'h' _ => .ok .help
    | none, .short 'V' _ => .ok .version
    | none, .short _ _ => .error (.unknownOption arg)

def parse (args : List String) : Except UsageError Request :=
  read args none {}

end TensorGraph.CommandLine
