import Teal.Compile

/-!
The command line: `build` writes the assembly of a file or project, `check` only looks for faults.
-/

namespace Teal

namespace Command

inductive Format where
  /-- As text, together with what else there is to say. -/
  | human
  | json
deriving DecidableEq, Inhabited

def Format.ofText? (text : String) : Option Format :=
  if text == "human" then some .human
  else if text == "json" then some .json
  else none

/-- What is compiled, for which version, and how diagnostics are written. -/
structure Job where
  input : Path
  version : Option Nat
  format : Format
deriving DecidableEq, Inhabited

end Command

inductive Command where
  /-- Compile and write the assembly to a file; `-` is the standard output. -/
  | build (job : Command.Job) (output : Option Path)
  | check (job : Command.Job)
  | help
  | version
deriving DecidableEq, Inhabited

namespace Command

def programName : String := "tealang"

def programVersion : String := "0.1.0"

/-- Options that take a value. -/
inductive Flag where
  | output
  | targetVersion
  | format
  | logLevel
deriving DecidableEq, Inhabited

namespace Flag

def text : Flag → String
  | .output => "--output"
  | .targetVersion => "--target-version"
  | .format => "--format"
  | .logLevel => "--log-level"

def ofText? (text : String) : Option Flag :=
  [output, targetVersion, format, logLevel].find? (·.text == text)

end Flag

inductive UsageFault where
  | missingCommand
  | unknownCommand (name : String)
  | unexpected (text : String)
  | missingValue (flag : Flag)
  | badValue (flag : Flag) (value : String)
  | repeated (flag : Flag)
  | missingInput
  | emptyInput
deriving DecidableEq, Inhabited

def UsageFault.message : UsageFault → String
  | .missingCommand => s!"'{programName}' requires a subcommand but one was not provided"
  | .unknownCommand name => s!"unrecognized subcommand '{name}'"
  | .unexpected text => s!"unexpected argument '{text}' found"
  | .missingValue flag => s!"a value is required for '{flag.text}' but none was supplied"
  | .badValue flag value => s!"invalid value '{value}' for '{flag.text}'"
  | .repeated flag => s!"the argument '{flag.text}' cannot be used multiple times"
  | .missingInput => "the following required arguments were not provided: <INPUT>"
  | .emptyInput => "a value is required for '<INPUT>' but none was supplied"

inductive Argument where
  /-- After this one no argument is an option. -/
  | separator
  | help
  | version
  /-- An option, with its value if that is attached. -/
  | flag (flag : Flag) (value : Option String)
  | unknown
  /-- Anything else; a single `-` too. -/
  | plain
deriving DecidableEq, Inhabited

/-- A long option, with what follows the first equals sign. -/
def Argument.ofLong (text : List Char) : Argument :=
  let name := String.ofList (text.takeWhile (· != '='))
  let value :=
    if text.contains '=' then some (String.ofList (text.dropWhile (· != '=')).tail) else none
  match Flag.ofText? name with
  | some f => .flag f value
  | none =>
    if value.isSome then .unknown
    else if name == "--help" then .help
    else if name == "--version" then .version
    else .unknown

def Argument.ofText (text : String) : Argument :=
  match text.toList with
  | ['-', '-'] => .separator
  | '-' :: '-' :: rest => .ofLong ('-' :: '-' :: rest)
  | ['-', 'o'] => .flag .output none
  | '-' :: 'o' :: '=' :: value => .flag .output (some (String.ofList value))
  | '-' :: 'o' :: value => .flag .output (some (String.ofList value))
  | '-' :: 'h' :: _ => .help
  | '-' :: 'V' :: _ => .version
  | '-' :: _ :: _ => .unknown
  | _ => .plain

structure Draft where
  input : Option Path
  output : Option Path
  version : Option Nat
  format : Option Format
  logLevel : Option String

def Draft.empty : Draft := ⟨none, none, none, none, none⟩

/-- A version to compile for: decimal digits, which may follow a plus sign. -/
def targetVersion? (text : String) : Option Nat :=
  (Project.natOfText? text.toList).filter fun v =>
    Options.minVersion ≤ v && v ≤ Options.maxVersion

/-- Set the value of an option, which may be done once. -/
def Draft.set (d : Draft) (flag : Flag) (value : String) : Except UsageFault Draft :=
  match flag with
  | .output =>
    if d.output.isSome then .error (.repeated flag)
    else if value == "" then .error (.missingValue flag)
    else .ok { d with output := some (.ofText value) }
  | .targetVersion =>
    if d.version.isSome then .error (.repeated flag)
    else match targetVersion? value with
      | some v => .ok { d with version := some v }
      | none => .error (.badValue flag value)
  | .format =>
    if d.format.isSome then .error (.repeated flag)
    else match Format.ofText? value with
      | some f => .ok { d with format := some f }
      | none => .error (.badValue flag value)
  | .logLevel =>
    if d.logLevel.isSome then .error (.repeated flag)
    else .ok { d with logLevel := some value }

def Draft.setInput (d : Draft) (text : String) : Except UsageFault Draft :=
  if d.input.isSome then .error (.unexpected text)
  else if text == "" then .error .emptyInput
  else .ok { d with input := some (.ofText text) }

/-- Read the arguments of a command that accepts some options. Nothing is yielded if help is asked
for. -/
def Draft.read (accepts : Flag → Bool) (d : Draft) : List String → Except UsageFault (Option Draft)
  | [] => .ok (some d)
  | a :: rest =>
    match Argument.ofText a, rest with
    | .separator, rest => do return some (← rest.foldlM Draft.setInput d)
    | .help, _ => .ok none
    | .version, _ => .error (.unexpected a)
    | .unknown, _ => .error (.unexpected a)
    | .plain, rest => do (← d.setInput a).read accepts rest
    | .flag f (some value), rest =>
      if accepts f then do (← d.set f value).read accepts rest else .error (.unexpected a)
    | .flag f none, [] => if accepts f then .error (.missingValue f) else .error (.unexpected a)
    | .flag f none, value :: rest =>
      if !accepts f then .error (.unexpected a)
      else if Argument.ofText value = .plain then do (← d.set f value).read accepts rest
      else .error (.missingValue f)

def Draft.job (d : Draft) : Except UsageFault Job :=
  match d.input with
  | some input => .ok ⟨input, d.version, d.format.getD .human⟩
  | none => .error .missingInput

/-- Read the arguments of a command of a given name. Help is about one command at most. -/
def ofName (name : String) (args : List String) : Except UsageFault Command := do
  if name == "build" then
    match ← Draft.empty.read (fun _ => true) args with
    | some d => return .build (← d.job) d.output
    | none => return .help
  else if name == "check" then
    match ← Draft.empty.read (· != .output) args with
    | some d => return .check (← d.job)
    | none => return .help
  else if name == "help" then
    match args.find? (· ∉ ["build", "check", "help"]), args.drop 1 with
    | some topic, _ => throw (.unknownCommand topic)
    | none, topic :: _ => throw (.unknownCommand topic)
    | none, [] => return .help
  else
    throw (.unknownCommand name)

/-- Read a command line. The log level may also stand before the command. -/
def ofArgs : (logged : Bool) → List String → Except UsageFault Command
  | _, [] => .error .missingCommand
  | logged, a :: rest =>
    match Argument.ofText a, rest with
    | .help, _ => .ok .help
    | .version, _ => .ok .version
    | .plain, args => ofName a args
    | .flag .logLevel (some _), rest =>
      if logged then .error (.repeated .logLevel) else ofArgs true rest
    | .flag .logLevel none, value :: rest =>
      if logged then .error (.repeated .logLevel)
      else if Argument.ofText value = .plain then ofArgs true rest
      else .error (.missingValue .logLevel)
    | .flag .logLevel none, [] => .error (.missingValue .logLevel)
    | .flag _ _, _ | .separator, _ | .unknown, _ => .error (.unexpected a)

end Command

end Teal
