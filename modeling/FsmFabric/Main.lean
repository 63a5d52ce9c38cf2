import FsmFabric.CommandLine.Run

/-!
# The command line program

Connects the program to the file system and the standard streams.
-/

namespace FsmFabric.CommandLine

/-- The error of a file operation, by the number that the system gives it where the kind of error is
not enough. -/
def fileErrorOf : IO.Error → FileError
  | .noFileOrDirectory .. => .missing
  | .inappropriateType _ number _ => if number = 20 then .notDirectory else .isDirectory
  | e@(.invalidArgument _ number _) => if number = 36 then .nameTooLong else .other (toString e)
  | e => .other (toString e)

def attempt {α : Type} (act : IO α) : IO (Except FileError α) := do
  match ← act.toBaseIO with
  | .ok a => return .ok a
  | .error e => return .error (fileErrorOf e)

instance : FileAccess IO where
  read path := attempt (IO.FS.readFile path)
  write path text := attempt (IO.FS.writeFile path text)

def shows (args : List String) (level : Level) : Bool :=
  match parse args with
  | .ok (options, _) => !options.quiet && (options.verbose || level == .warn)
  | .error _ => false

end FsmFabric.CommandLine

open FsmFabric CommandLine in
def main (args : List String) : IO UInt32 := do
  let report : Report ← run args
  for l in report.log.reverse do
    if shows args l.level then IO.eprintln (l.level.text ++ " " ++ l.message)
  IO.print report.output
  if let some problem := report.problem then IO.eprintln ("error: " ++ problem.message)
  return report.exitCode.toUInt32
