/-!
# Files

Programs read and write files by name through `FileAccess`. A `Files` value is a directory tree in
which they can be run without side effects. They run in a working directory somewhere below the root
of the tree; `/dev/null` is there too, an empty file that takes everything and keeps nothing.
-/

namespace FsmFabric

/-- Why a file cannot be read or written. -/
inductive FileError where
  | missing
  /-- A file stands where a directory is needed. -/
  | notDirectory
  /-- A directory stands where a file is needed. -/
  | isDirectory
  /-- A path, or one of its parts, is too long. -/
  | nameTooLong
  | other (text : String)
deriving DecidableEq, Repr

def FileError.message : FileError → String
  | missing => "No such file or directory (os error 2)"
  | notDirectory => "Not a directory (os error 20)"
  | isDirectory => "Is a directory (os error 21)"
  | nameTooLong => "File name too long (os error 36)"
  | other text => text

/-- Reading and writing whole files by name. -/
class FileAccess (m : Type → Type) where
  read : String → m (Except FileError String)
  write : String → String → m (Except FileError Unit)

namespace Path

def maxBytes : Nat := 4095

def maxPartBytes : Nat := 255

def parts (path : String) : List String := (path.splitOn "/").filter (· != "")

/-- Whether a part names something, rather than lead to where it stands or upwards. -/
def isName (part : String) : Bool := part != "." && part != ".."

/-- The last part of a path, unless it leads upwards. -/
def fileName? (path : String) : Option String :=
  match ((parts path).filter (· != ".")).getLast? with
  | some ".." | none => none
  | some name => some name

end Path

/-- A place in a tree: the names on the way down from its root. -/
abbrev Place := List String

/-- The files of a tree, each with its place, and the working directory. -/
structure Files where
  entries : List (Place × String)
  working : Place

namespace Files

/-- The place of the file that keeps nothing. -/
def nullPlace : Place := ["dev", "null"]

/-- The files with the given paths below the working directory, which has none else. -/
def ofList (files : List (String × String)) : Files :=
  let working := ["tmp", "work"]
  ⟨files.map fun (path, text) => (working ++ (Path.parts path).filter (· != "."), text), working⟩

def file? (fs : Files) (place : Place) : Option String :=
  if place = nullPlace then some "" else fs.entries.lookup place

/-- Whether there is a directory at a place: the working directory, one that holds a file, or one on
the way to these. -/
def isDirectory (fs : Files) (place : Place) : Bool :=
  place.isPrefixOf fs.working || place.isPrefixOf nullPlace.dropLast ||
    fs.entries.any fun e => place.isPrefixOf e.1.dropLast

def requireDirectory (fs : Files) (place : Place) : Except FileError Unit :=
  if fs.isDirectory place then .ok ()
  else if (fs.file? place).isSome then .error .notDirectory
  else .error .missing

/-- Where a part of a path leads from a place, which must be a directory. The root is its own parent. -/
def step (fs : Files) (place : Place) (part : String) : Except FileError Place := do
  fs.requireDirectory place
  if part == "." then return place
  else if part == ".." then return place.dropLast
  else if Path.maxPartBytes < part.utf8ByteSize then .error .nameTooLong
  else return place ++ [part]

/-- Where a path starts, if it is a path at all. -/
def start (fs : Files) (path : String) : Except FileError Place :=
  if path.isEmpty then .error .missing
  else if Path.maxBytes < path.utf8ByteSize then .error .nameTooLong
  else .ok (if path.startsWith "/" then [] else fs.working)

/-- Where a path leads. Everything on the way must be there, but nothing need be at its end. -/
def resolve (fs : Files) (path : String) : Except FileError Place := do
  (Path.parts path).foldlM fs.step (← fs.start path)

def read (fs : Files) (path : String) : Except FileError String := do
  let place ← fs.resolve path
  match fs.file? place with
  | some text => if path.endsWith "/" then .error .notDirectory else .ok text
  | none => if fs.isDirectory place then .error .isDirectory else .error .missing

def put (fs : Files) (place : Place) (text : String) : Files :=
  if place = nullPlace then fs
  else { fs with entries := (place, text) :: fs.entries.filter fun e => e.1 != place }

/-- Creates or replaces the file that a path leads to. A slash behind a name makes it the name of a
directory, whether it is there or not. -/
def write (fs : Files) (path text : String) : Except FileError Files := do
  let parts := Path.parts path
  if path.endsWith "/" && parts.getLast?.any Path.isName then
    fs.requireDirectory (← parts.dropLast.foldlM fs.step (← fs.start path))
    .error .isDirectory
  else
    let place ← fs.resolve path
    if fs.isDirectory place then .error .isDirectory else return fs.put place text

instance : FileAccess (StateM Files) where
  read path := do return (← get).read path
  write path text := do
    match (← get).write path text with
    | .ok fs =>
      set fs
      return .ok ()
    | .error e => return .error e

end Files

end FsmFabric
