/-!
# TOML documents

A document is a tree of tables. Every node knows where its text starts, unless it is a table that
is only implied by others. Places count the characters that are left of the text from there on.

Headers open tables and dotted keys make tables on their way; `Node.update` says which tables each
of them may pass through.
-/

namespace FsmFabric.Toml

structure Key where
  name : String
  start : Nat
deriving DecidableEq, Repr

/-- How a table came to be. -/
inductive TableKind where
  /-- Written as a value between braces. -/
  | inline
  /-- Opened by a header of its own. -/
  | header
  /-- Named on the way to another header. -/
  | implied
  /-- Named on the way to a dotted key. -/
  | dotted
deriving DecidableEq, Repr

/-- A value or a table. -/
inductive Node where
  | text (start : Nat) (value : String)
  | integer (start : Nat) (value : Int)
  /-- A Boolean, a float or a date. -/
  | scalar (start : Nat)
  | array (start : Nat) (items : List Node)
  | table (kind : TableKind) (start : Option Nat) (entries : List (Key × Node))
  /-- The tables that headers with doubled brackets have opened. -/
  | tables (items : List Node)
deriving Repr

inductive Route where
  /-- By the keys of a header. -/
  | header
  /-- By the keys before the last one of a dotted key. -/
  | dotted
deriving DecidableEq, Repr

/-- The kind of a table that is made on the way. -/
def Route.makes : Route → TableKind
  | header => .implied
  | dotted => .dotted

/-- Whether the way may lead through a table. A header passes every table that is not a value; a
dotted key only those without a header. -/
def Route.enters : Route → TableKind → Bool
  | header, kind => kind != .inline
  | dotted, kind => kind == .implied || kind == .dotted

namespace Node

def start? : Node → Option Nat
  | text start _ | integer start _ | scalar start | array start _ => some start
  | table _ start _ => start
  | tables (table _ start _ :: _) => start
  | tables _ => none

def lookup (name : String) : List (Key × Node) → Option Node
  | [] => none
  | (key, node) :: rest => if key.name == name then some node else lookup name rest

def replace (name : String) (node : Node) (entries : List (Key × Node)) : List (Key × Node) :=
  entries.map fun (key, old) => if key.name == name then (key, node) else (key, old)

/-- Changes the table at the end of a path. Of several tables with one name, the last is meant. -/
def update (route : Route) : List Key → (Node → Option Node) → Node → Option Node
  | [], change, node => change node
  | key :: path, change, table kind start entries =>
    match lookup key.name entries with
    | none => do
      let child ← update route path change (table route.makes none [])
      return table kind start (entries ++ [(key, child)])
    | some (tables items) =>
      match items.getLast? with
      | none => none
      | some last => do
        let last ← update route path change last
        return table kind start (replace key.name (tables (items.dropLast ++ [last])) entries)
    | some child@(table inner _ _) =>
      if route.enters inner then do
        let child ← update route path change child
        return table kind start (replace key.name child entries)
      else none
    | some _ => none
  | _ :: _, _, _ => none

/-- Adds an entry to a table that a key without dots (`plain`) or with dots may write to. -/
def put (plain : Bool) (key : Key) (value : Node) : Node → Option Node
  | table kind start entries =>
    if (kind == .dotted) == plain || (lookup key.name entries).isSome then none
    else some (table kind start (entries ++ [(key, value)]))
  | _ => none

/-- Writes a value under a key, which may have dots. -/
def assign (path : List Key) (value : Node) (node : Node) : Option Node :=
  match path.getLast? with
  | none => none
  | some key => update .dotted path.dropLast (put (path.length == 1) key value) node

/-- Opens a table, which must be new or only implied so far. -/
def openTable (start : Nat) (path : List Key) (node : Node) : Option Node :=
  match path.getLast? with
  | none => none
  | some key =>
    update .header path.dropLast (fun
      | table kind outer entries =>
        match lookup key.name entries with
        | none => some (table kind outer (entries ++ [(key, table .header (some start) [])]))
        | some (table .implied _ inner) =>
          let others := entries.filter fun e => e.1.name != key.name
          some (table kind outer (others ++ [(key, table .header (some start) inner)]))
        | some _ => none
      | _ => none) node

/-- Opens one more table of an array of tables. -/
def openArray (start : Nat) (path : List Key) (node : Node) : Option Node :=
  match path.getLast? with
  | none => none
  | some key =>
    update .header path.dropLast (fun
      | table kind outer entries =>
        let opened := table .header (some start) []
        match lookup key.name entries with
        | none => some (table kind outer (entries ++ [(key, tables [opened])]))
        | some (tables items) =>
          some (table kind outer (replace key.name (tables (items ++ [opened])) entries))
        | some _ => none
      | _ => none) node

/-- The inline table of given pairs. -/
def ofPairs (start : Nat) (pairs : List (List Key × Node)) : Option Node := do
  match ← pairs.foldlM (fun t (path, value) => assign path value t) (table .header none []) with
  | table _ _ entries => some (table .inline (some start) entries)
  | _ => none

end Node

end FsmFabric.Toml
