import FsmFabric.Image.Listing

/-!
# Command line arguments

Options are long (`--config x`, `--config=x`) or short (`-f x`, `-fx`, `-f=x`; flags can be joined
as in `-qv`). None may be given twice, and a value must not look like an option. After `--` there
are no more options. The options of the program may stand before the command or behind it; what
stands behind counts. Arguments are judged from left to right, so the first one that is wrong, or
asks for help, decides; only what is missing is found at the end.
-/

namespace FsmFabric.CommandLine

/-- The options of the program. -/
structure Options where
  quiet : Bool
  verbose : Bool
  config : Option String
deriving DecidableEq, Repr

/-- What to do. -/
inductive Command where
  /-- Compiles the design in a file. -/
  | compile (design : String) (format : Format) (output : Option String)
  /-- Describes the chip. -/
  | layout
  /-- Compiles the empty design under a module name. -/
  | reset (module : String) (format : Format) (output : Option String)
deriving DecidableEq, Repr

/-- Reasons not to run a command. -/
inductive Detour where
  /-- The arguments make no sense. -/
  | usage
  | help
  | version
deriving DecidableEq, Repr

inductive Switch where
  | quiet | verbose | config | format | output | module | help | version
deriving DecidableEq, Repr

namespace Switch

def long : Switch → String
  | quiet => "quiet"
  | verbose => "verbose"
  | config => "config"
  | format => "format"
  | output => "output"
  | module => "module"
  | help => "help"
  | version => "version"

def short? : Switch → Option Char
  | quiet => some 'q'
  | verbose => some 'v'
  | format => some 'f'
  | output => some 'o'
  | help => some 'h'
  | version => some 'V'
  | config | module => none

def hasValue : Switch → Bool
  | config | format | output | module => true
  | quiet | verbose | help | version => false

/-- The options that may be given before the command. -/
def ofProgram : List Switch := [quiet, verbose, config, help, version]

/-- The options that may be given behind a command of a name. -/
def ofCommand? : String → Option (List Switch)
  | "compile" => some [quiet, verbose, config, help, format, output]
  | "layout" => some [quiet, verbose, config, help]
  | "reset" => some [quiet, verbose, config, help, format, output, module]
  | _ => none

end Switch

abbrev Found := List (Switch × String)

namespace Found

/-- Whether an option takes a value. -/
def accepts (s : Switch) (value : String) : Bool :=
  match s with
  | .format => (Format.names.lookup value).isSome
  | _ => true

/-- Adds an option, which must be new, with a value that it takes. -/
def add (found : Found) (s : Switch) (value : String) : Except Detour Found :=
  match s with
  | .help => .error .help
  | .version => .error .version
  | _ =>
    if (found.lookup s).isNone && accepts s value then .ok ((s, value) :: found)
    else .error .usage

/-- Reads joined short options. The last one may still need its value. -/
def addShort (allowed : List Switch) (found : Found) :
    List Char → Except Detour (Found × Option Switch)
  | [] => .ok (found, none)
  | c :: rest =>
    match allowed.find? fun s => s.short? == some c with
    | none => .error .usage
    | some s =>
      if s.hasValue then
        match rest with
        | [] => .ok (found, some s)
        | '=' :: value => do return (← found.add s (String.ofList value), none)
        | value => do return (← found.add s (String.ofList value), none)
      else do addShort allowed (← found.add s "") rest

/-- Reads a long option without its dashes, which may still need its value. -/
def addLong (allowed : List Switch) (found : Found) (word : List Char) :
    Except Detour (Found × Option Switch) := do
  let name := word.takeWhile (· != '=')
  match allowed.find? fun s => s.long.toList == name with
  | none => .error .usage
  | some s =>
    match word.dropWhile (· != '='), s.hasValue with
    | [], true => .ok (found, some s)
    | _ :: value, true => return (← found.add s (String.ofList value), none)
    | [], false => return (← found.add s "", none)
    | _ :: _, false => .error .usage

/-- Reads an option; a word that is none gives `none`. -/
def addOption? (allowed : List Switch) (found : Found) (word : String) :
    Except Detour (Option (Found × Option Switch)) :=
  match word.toList with
  | '-' :: '-' :: rest => do return some (← found.addLong allowed rest)
  | '-' :: c :: rest => do return some (← found.addShort allowed (c :: rest))
  | _ => .ok none

end Found

def isOption (word : String) : Bool := word.startsWith "-" && word != "-"

/-- Options, words that are none, and what is left to read. -/
structure Scanned where
  found : Found
  words : List String
  rest : List String

/-- Reads options and at most `room` other words; without `room`, only up to the first other word,
which must not stand after `--`. -/
def scan (allowed : List Switch) (room : Option Nat) (found : Found) :
    List String → Except Detour Scanned
  | [] => .ok ⟨found, [], []⟩
  | "--" :: rest =>
    match room with
    | none => .ok ⟨found, [], []⟩
    | some room => if rest.length ≤ room then .ok ⟨found, rest, []⟩ else .error .usage
  | word :: rest => do
    match ← found.addOption? allowed word with
    | some (found, none) => scan allowed room found rest
    | some (found, some s) =>
      match rest with
      | [] => .error .usage
      | value :: rest =>
        if isOption value then .error .usage
        else scan allowed room (← found.add s value) rest
    | none =>
      match room with
      | none => .ok ⟨found, [word], rest⟩
      | some 0 => .error .usage
      | some (room + 1) =>
        let scanned ← scan allowed (some room) found rest
        return { scanned with words := word :: scanned.words }

def formatOf (found : Found) : Format :=
  ((found.lookup .format).bind fun name => Format.names.lookup name).getD .hex

def wordsOf (name : String) : Nat := if name == "compile" then 1 else 0

/-- A command with its options and its other words. -/
def commandOf (name : String) (found : Found) (words : List String) : Except Detour Command :=
  let format := formatOf found
  let output := found.lookup .output
  match name, words with
  | "compile", [design] => .ok (.compile design format output)
  | "layout", [] => .ok .layout
  | "reset", [] => .ok (.reset ((found.lookup .module).getD "reset") format output)
  | _, _ => .error .usage

/-- The word that asks for help on the program, or on a command that follows it. -/
def helpWord : String := "help"

/-- What to do when help is asked for on something. -/
def helpOn : List String → Detour
  | [] => .help
  | [topic] => if topic == helpWord || (Switch.ofCommand? topic).isSome then .help else .usage
  | _ => .usage

def parse (args : List String) : Except Detour (Options × Command) := do
  let outer ← scan Switch.ofProgram none [] args
  match outer.words with
  | [name] =>
    match Switch.ofCommand? name with
    | none => .error (if name == helpWord then helpOn outer.rest else .usage)
    | some allowed =>
      let inner ← scan allowed (some (wordsOf name)) [] outer.rest
      let command ← commandOf name inner.found inner.words
      let found := inner.found ++ outer.found
      return ({ quiet := (found.lookup .quiet).isSome
                verbose := (found.lookup .verbose).isSome
                config := found.lookup .config }, command)
  | _ => .error .usage

end FsmFabric.CommandLine
