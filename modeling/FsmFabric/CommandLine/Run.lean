import FsmFabric.Chip.Summary
import FsmFabric.CommandLine.Arguments
import FsmFabric.Compiler
import FsmFabric.Config
import FsmFabric.Design.Codec

/-!
# The program

`CommandLine.run` is the whole program over any way to access files. It answers what to print and
with which code to exit.
-/

namespace FsmFabric.CommandLine

/-- Why a command failed. -/
inductive Problem where
  | unreadable (path : String) (error : FileError)
  | unwritable (path : String) (error : FileError)
  | refused (error : Error)
deriving DecidableEq, Repr

def Problem.message : Problem → String
  | unreadable path error => "cannot read design " ++ path ++ ": " ++ error.message
  | unwritable path error => "cannot write " ++ path ++ ": " ++ error.message
  | refused error => error.message

/-- The outcome of a run. -/
structure Report where
  exitCode : Nat
  /-- What is printed. -/
  output : String := ""
  problem : Option Problem := none
  log : Log := []

namespace Report

def done (output : String) (log : Log) : Report := { exitCode := 0, output, log }

def failed (problem : Problem) (log : Log) : Report :=
  { exitCode := 1, problem := some problem, log }

def crashed (log : Log) : Report := { exitCode := 101, log }

def ofFailure (failure : Failure Error) (log : Log) : Report :=
  match failure with
  | .refused e => failed (.refused e) log
  | .fault _ => crashed log

end Report

def versionText : String := "prism 0.1.0\n"

def helpText : String :=
  "PRISM FSM compiler\n\nUsage: prism [OPTIONS] <COMMAND>\n\nCommands:\n" ++
    "  compile <DESIGN> [-f hex|tab|list|c] [-o PATH]\n  layout\n" ++
    "  reset [--module NAME] [-f hex|tab|list|c] [-o PATH]\n\nOptions:\n" ++
    "  -q, --quiet\n  -v, --verbose\n      --config <PATH>\n  -h, --help\n  -V, --version\n"

variable {m : Type → Type} [Monad m] [FileAccess m]

/-- Prints the image in a format, or writes it to a file. -/
def emit (image : Image) (format : Format) (output : Option String) (log : Log) : m Report := do
  match image.render format with
  | .error failure => return .ofFailure failure log
  | .ok text =>
    match output with
    | none => return .done text log
    | some path =>
      match ← FileAccess.write path text with
      | .error e => return .failed (.unwritable path e) log
      | .ok _ =>
        return .done "" (⟨.info, "wrote " ++ format.text ++ " image to " ++ path⟩ :: log)

/-- Compiles a machine under a module name on the chip of a configuration file. -/
def build (options : Options) (module : String) (machine : Builder) (format : Format)
    (output : Option String) : m Report := do
  match ← Resolved.load options.config with
  | .error _ => return .crashed []
  | .ok (resolved, loading) =>
    let session : Session :=
      { module, config := resolved.name, chip := resolved.chip,
        verbose := options.verbose && !options.quiet }
    let (outcome, log) := session.run machine
    match outcome with
    | .error failure => return .ofFailure failure (log ++ loading)
    | .ok image => emit image format output (log ++ loading)

/-- The module and the machine that the text of a design describes. -/
def readMachine (text : String) : Result (String × Builder) := do
  let design ← (Design.read text).mapError .refused
  return (design.module, ← design.replay)

/-- Runs a command. -/
def execute (options : Options) : Command → m Report
  | .compile design format output => do
    match ← FileAccess.read design with
    | .error e => return .failed (.unreadable design e) []
    | .ok text =>
      match readMachine text with
      | .error failure => return .ofFailure failure []
      | .ok (module, machine) => build options module machine format output
  | .layout => do
    match ← Resolved.load options.config with
    | .error _ => return .crashed []
    | .ok (resolved, log) =>
      match resolved.chip.summary resolved.name with
      | .error failure => return .ofFailure failure log
      | .ok text => return .done text log
  | .reset module format output => build options module Builder.fresh format output

/-- Runs the program. -/
def run (args : List String) : m Report :=
  match parse args with
  | .ok (options, command) => execute options command
  | .error .version => return .done versionText []
  | .error .help => return .done helpText []
  | .error .usage => return { exitCode := 2 }

end FsmFabric.CommandLine
