import Teal.Command
import Teal.Report

/-!
Running a command: what it prints, and how it ends.
-/

namespace Teal

/-- How a command ended: its status, and the texts for the standard output and the error output. -/
structure Outcome where
  status : Nat
  out : String
  err : String
deriving DecidableEq, Inhabited

namespace Outcome

def failed (message : String) : Outcome := ⟨1, "", "error: " ++ message ++ "\n"⟩

/-- What is left of a command that stops in between. -/
def aborted : Outcome := ⟨101, "", ""⟩

def withErr (o : Outcome) (text : String) : Outcome := { o with err := o.err ++ text }

def withOut (o : Outcome) (text : String) : Outcome := { o with out := o.out ++ text }

end Outcome

namespace Command

/-- What is to be compiled: the main file and the project it belongs to. -/
structure Input where
  entry : Path
  project : Option Project

/-- The settings of a command: those of the project, unless the command says otherwise. -/
def options (project : Option Project) (version : Option Nat) : Options :=
  let o := match project with
    | some p => Options.default.withProject p
    | none => .default
  { o with version := version.getD o.version }

def outputExtension : Path.Extension := ⟨"teal", by decide⟩

def reported (format : Format) (c : Compilation) : Outcome :=
  match format with
  | .json => ⟨0, Report.allToJson c.diagnostics c.sources ++ "\n", ""⟩
  | .human => ⟨0, "", String.join (c.diagnostics.map fun d => d.renderPlain c.sources ++ "\n")⟩

variable {m : Type → Type} [Monad m]

/-- The main file of a directory with a project file, or a file together with the project above it. -/
def resolveInput (fs : FileSystem m) (input : Path) : m (Except Outcome Input) := do
  if ← fs.isDir input then
    let path := input.join (.ofText Project.fileName)
    if !(← fs.present path) then
      return .error (.failed s!"no {Project.fileName} found in '{input.text}'")
    match ← Project.load fs path with
    | .error fault => return .error (.failed fault.message)
    | .ok project =>
      match project.entry with
      | some entry => return .ok ⟨entry, some project⟩
      | none =>
        return .error ((Outcome.failed s!"project '{project.name}' has no entry file").withErr
          "  help: add `entry = \"main.tl\"` under [project]\n")
  else
    match ← Project.find fs (input.parent?.getD (.ofText ".")) with
    | none => return .ok ⟨input, none⟩
    | some path =>
      match ← Project.load fs path with
      | .error fault => return .error (.failed fault.message)
      | .ok project => return .ok ⟨input, some project⟩

/-- Compile the input of a job. The main file comes with the result. -/
def compileJob (fs : FileSystem m) (job : Job) (emit : Bool) :
    m (Except Outcome (Path × Compilation)) := do
  match ← resolveInput fs job.input with
  | .error o => return .error o
  | .ok input =>
    match ← compileFile fs (options input.project job.version) emit input.entry with
    | .error fault =>
      return .error (.failed s!"cannot read '{input.entry.text}': {fault.message}")
    | .ok none => return .error .aborted
    | .ok (some c) => return .ok (input.entry, c)

def runBuild (fs : FileSystem m) (job : Job) (output : Option Path) : m Outcome := do
  match ← compileJob fs job true with
  | .error o => return o
  | .ok (entry, c) =>
    let o := reported job.format c
    match c.assembly with
    | none => return { o.withErr s!"error: could not compile '{entry.text}'\n" with status := 1 }
    | some lines =>
      let path := output.getD (entry.replaceExtension outputExtension)
      if path.text == "-" then
        return o.withOut (assemblyText lines)
      match ← fs.write path (assemblyText lines) with
      | .error fault =>
        return { o.withErr s!"error: cannot write '{path.text}': {fault.message}\n" with status := 1 }
      | .ok () =>
        if job.format = .human then
          return o.withErr s!"Compiled -> {path.text}\n"
        return o

def runCheck (fs : FileSystem m) (job : Job) : m Outcome := do
  match ← compileJob fs job false with
  | .error o => return o
  | .ok (_, c) =>
    let o := reported job.format c
    if c.hasErrors then
      return { o with status := 1 }
    if job.format = .human then
      return o.withErr s!"OK: {job.input.text}\n"
    return o

def usage : String := String.join
  [ "Compile tealang smart contracts to TEAL assembly\n\n",
    "Usage: tealang [OPTIONS] <COMMAND>\n\n",
    "Commands:\n",
    "  build  Compile a source file (or project) to assembly\n",
    "  check  Type-check without emitting assembly\n",
    "  help   Print this message or the help of the given subcommand(s)\n\n",
    "Options:\n",
    "      --log-level <LOG_LEVEL>  Log filter, e.g. `debug` or `tealang=trace`\n",
    "  -h, --help                   Print help\n",
    "  -V, --version                Print version\n" ]

def run (fs : FileSystem m) : Command → m Outcome
  | .build job output => runBuild fs job output
  | .check job => runCheck fs job
  | .help => return ⟨0, usage, ""⟩
  | .version => return ⟨0, programName ++ " " ++ programVersion ++ "\n", ""⟩

/-- Run a command line. Wrong arguments have the status 2. -/
def runArgs (fs : FileSystem m) (args : List String) : m Outcome :=
  match ofArgs false args with
  | .ok command => command.run fs
  | .error fault => return ⟨2, "", "error: " ++ fault.message ++ "\n"⟩

end Command

end Teal
