import FsmFabric.Chip.Toml
import FsmFabric.Chip.Validate
import FsmFabric.Diagnostic
import FsmFabric.Files
import FsmFabric.Log
import FsmFabric.Toml.Reader

/-!
# Configurations

A configuration is the description of a chip in a file. Without a file that can be used, the
fallback chip is taken.
-/

namespace FsmFabric

inductive ConfigError where
  | file (error : FileError)
  | parse (diagnostic : Diagnostic)
  | invalid (flaw : Flaw)
deriving DecidableEq, Repr

def ConfigError.message : ConfigError → String
  | file error => "failed to read configuration: " ++ error.message
  | parse diagnostic => diagnostic.text
  | invalid flaw => "validation error: " ++ flaw.message

namespace Config

/-- A parse error at the place where a number of characters is left. -/
def parseError (file text : String) (left : Nat) (message : String) : Failure ConfigError :=
  .refused (.parse (Diagnostic.locate file text (Toml.byteOffset text left) message))

/-- The valid chip that a text describes. -/
def read (file text : String) : Except (Failure ConfigError) Chip := do
  let root ← (Toml.read text).mapError fun left => parseError file text left "invalid TOML"
  let chip ← (Toml.Decode.located Chip.ofToml root).mapError fun left =>
    parseError file text (left.getD 0) "unexpected value or missing key"
  chip.validate.mapError fun failure => failure.mapError .invalid
  return chip

end Config

/-- A chip and the path of the file that describes it, if there is one. -/
structure Resolved where
  chip : Chip
  path : Option String

namespace Resolved

def nameOf (path : Option String) : String := (path.bind Path.fileName?).getD "fallback"

def name (r : Resolved) : String := nameOf r.path

/-- The fallback chip, with the log so far. -/
def fallback (log : Log) : Resolved × Log :=
  (⟨Chip.fallback, none⟩, ⟨.info, "using fallback configuration"⟩ :: log)

/-- The outcome of reading the file at a path. -/
def ofFile (path : String) (contents : Except FileError String) :
    Except Fault (Resolved × Log) :=
  match contents with
  | .error e => .ok (fallback [⟨.warn, (ConfigError.file e).message⟩])
  | .ok text =>
    match Config.read path text with
    | .ok chip =>
      .ok (⟨chip, some path⟩,
        [⟨.info, "loaded configuration \"" ++ chip.title ++ "\" from " ++ path⟩])
    | .error (.refused e) => .ok (fallback [⟨.warn, e.message⟩])
    | .error (.fault f) => .error f

/-- The chip at a path, or the fallback, with the log of finding it. -/
def load {m : Type → Type} [Monad m] [FileAccess m] (path : Option String) :
    m (Except Fault (Resolved × Log)) :=
  match path with
  | none => return .ok (fallback [])
  | some path => do return ofFile path (← FileAccess.read path)

end Resolved

end FsmFabric
