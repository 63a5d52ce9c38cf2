/-!
# TOML numbers and dates

Each recognizer reads the longest text of its kind at the front of the input. Integers have 64 bits
with a sign; of the other kinds only the text counts.
-/

namespace FsmFabric.Toml.Number

abbrev Input := List Char

def isDigit (c : Char) : Bool := '0' ≤ c && c ≤ '9'

/-- The value of a digit of a base up to 16. -/
def digit? (base : Nat) (c : Char) : Option Nat :=
  let value :=
    if isDigit c then c.toNat - '0'.toNat
    else if 'a' ≤ c ∧ c ≤ 'f' then c.toNat - 'a'.toNat + 10
    else if 'A' ≤ c ∧ c ≤ 'F' then c.toNat - 'A'.toNat + 10
    else base
  if value < base then some value else none

/-- More digits, each of which may follow an underscore. -/
def moreDigits (base : Nat) : Input → List Nat × Input
  | '_' :: c :: rest =>
    match digit? base c with
    | some d =>
      let (ds, rest) := moreDigits base rest
      (d :: ds, rest)
    | none => ([], '_' :: c :: rest)
  | c :: rest =>
    match digit? base c with
    | some d =>
      let (ds, rest) := moreDigits base rest
      (d :: ds, rest)
    | none => ([], c :: rest)
  | [] => ([], [])

def digits? (base : Nat) : Input → Option (List Nat × Input)
  | c :: rest => do
    let d ← digit? base c
    let (ds, rest) := moreDigits base rest
    return (d :: ds, rest)
  | [] => none

def valueOf (base : Nat) (ds : List Nat) : Nat := ds.foldl (fun n d => base * n + d) 0

/-- A sign, if there is one: whether it is a minus. -/
def sign : Input → Bool × Input
  | '+' :: rest => (false, rest)
  | '-' :: rest => (true, rest)
  | input => (false, input)

/-- Digits without a leading zero, unless that is all. -/
def whole? : Input → Option (List Nat × Input)
  | '0' :: rest => some ([0], rest)
  | input => digits? 10 input

def fraction? : Input → Option (List Nat × Input)
  | '.' :: rest => digits? 10 rest
  | _ => none

def exponent? : Input → Option (Int × Input)
  | e :: rest =>
    if e == 'e' || e == 'E' then do
      let (negative, rest) := sign rest
      let (ds, rest) ← digits? 10 rest
      let n := valueOf 10 ds
      return (if negative then -n else n, rest)
    else none
  | [] => none

/-- An integer within 64 bits. -/
def integer? : Input → Option (Int × Input)
  | '0' :: 'x' :: rest => based 16 rest
  | '0' :: 'o' :: rest => based 8 rest
  | '0' :: 'b' :: rest => based 2 rest
  | input => do
    let (negative, rest) := sign input
    let (ds, rest) ← whole? rest
    let n := valueOf 10 ds
    if negative then (if n ≤ 1 <<< 63 then some (-n, rest) else none)
    else if n < 1 <<< 63 then some (n, rest) else none
where
  based (base : Nat) (input : Input) : Option (Int × Input) := do
    let (ds, rest) ← digits? base input
    let n := valueOf base ds
    if n < 1 <<< 63 then some (n, rest) else none

/-- The least number that rounds to infinity in binary64. -/
def infinityBound : Nat := (1 <<< 54 - 1) <<< 970

/-- Whether decimal digits with an exponent are too large for binary64. -/
def overflows (ds : List Nat) (exponent : Int) : Bool :=
  let ds := ds.dropWhile (· == 0)
  let magnitude := exponent + ds.length
  if ds.isEmpty || magnitude < 300 then false
  else if 400 < magnitude then true
  else
    let scale := Nat.pow 10 exponent.natAbs
    if 0 ≤ exponent then decide (infinityBound ≤ valueOf 10 ds * scale)
    else decide (infinityBound * scale ≤ valueOf 10 ds)

/-- A decimal number with a fraction or an exponent, that is not rounded up to infinity. -/
def decimal? (input : Input) : Option Input := do
  let (negative, rest) := sign input
  let (ds, rest) ← whole? rest
  let fraction := fraction? rest
  let (places, rest) := fraction.getD ([], rest)
  let (exponent, rest) ←
    match exponent? rest with
    | some found => some found
    | none => fraction.map fun _ => (0, rest)
  if !negative && overflows (ds ++ places) (exponent - places.length) then none else some rest

/-- The floats that are no numbers, with a sign if wanted. -/
def special? (input : Input) : Option Input :=
  match (sign input).2 with
  | 'i' :: 'n' :: 'f' :: rest | 'n' :: 'a' :: 'n' :: rest => some rest
  | _ => none

def float? (input : Input) : Option Input := (decimal? input).or (special? input)

/-- A number of exactly `count` digits. -/
def fixed? (count : Nat) (input : Input) : Option (Nat × Input) := do
  let ds ← (input.take count).mapM (digit? 10)
  if ds.length = count then some (valueOf 10 ds, input.drop count) else none

def mark? (c : Char) : Input → Option Input
  | d :: rest => if c == d then some rest else none
  | [] => none

def monthDays (year month : Nat) : Nat :=
  if month = 2 then
    if year % 4 = 0 ∧ (year % 100 ≠ 0 ∨ year % 400 = 0) then 29 else 28
  else if [4, 6, 9, 11].contains month then 30 else 31

def date? (input : Input) : Option Input := do
  let (year, rest) ← fixed? 4 input
  let (month, rest) ← fixed? 2 (← mark? '-' rest)
  let (day, rest) ← fixed? 2 (← mark? '-' rest)
  if 1 ≤ month ∧ month ≤ 12 ∧ 1 ≤ day ∧ day ≤ monthDays year month then some rest else none

def clock? (input : Input) : Option Input := do
  let (hour, rest) ← fixed? 2 input
  let (minute, rest) ← fixed? 2 (← mark? ':' rest)
  if hour ≤ 23 ∧ minute ≤ 59 then some rest else none

/-- A time of day, with a part of a second if wanted. -/
def time? (input : Input) : Option Input := do
  let rest ← clock? input
  let (second, rest) ← fixed? 2 (← mark? ':' rest)
  if 60 < second then none
  else
    match rest with
    | '.' :: c :: more => if isDigit c then some (more.dropWhile isDigit) else some rest
    | _ => some rest

/-- A distance from universal time. -/
def offset? : Input → Option Input
  | 'Z' :: rest | 'z' :: rest => some rest
  | '+' :: rest | '-' :: rest => clock? rest
  | _ => none

/-- A date with or without a time, or a time. -/
def moment? (input : Input) : Option Input :=
  match date? input with
  | none => time? input
  | some rest =>
    let delimited :=
      match rest with
      | 'T' :: more | 't' :: more | ' ' :: more => time? more
      | _ => none
    match delimited with
    | none => some rest
    | some rest => (offset? rest).or (some rest)

end FsmFabric.Toml.Number
