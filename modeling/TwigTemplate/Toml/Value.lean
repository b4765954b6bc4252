/-!
# Values of a configuration file

A TOML document is a table. Each table remembers how it came to be, since that decides who may still
add to it: a table that a header or an inline value defined is complete under its own name, one that
only stands on the way to another may be defined later, and one made by dotted keys grows by dotted
keys alone.
-/

namespace TwigTemplate.Toml

/-- How a table was made. -/
inductive Origin where
  /-- It stands on the way of a header. -/
  | passing
  /-- It stands on the way of a dotted key. -/
  | dotted
  /-- A header names it; also the root. -/
  | header
  /-- Written between braces. -/
  | inline
  deriving DecidableEq, Repr

inductive Value where
  | string (s : String)
  | integer (n : Int)
  | float
  | boolean (b : Bool)
  | datetime
  | array (items : List Value)
  | table (origin : Origin) (entries : List (String × Value))
  /-- Tables under one repeated header, the latest first. -/
  | tables (items : List (List (String × Value)))

abbrev Entries := List (String × Value)

namespace Entries

def get? (es : Entries) (key : String) : Option Value :=
  (es.find? (·.1 = key)).map (·.2)

/-- Replace the value of a key, or add the key. -/
def put (es : Entries) (key : String) (v : Value) : Entries :=
  (key, v) :: es.filter (·.1 ≠ key)

end Entries

/-- What is done to a table that has been reached: its new state, or `none` if it may not be done. -/
abbrev Change := Origin → Entries → Option (Origin × Entries)

/-- Apply a change to the table at the end of a path. Missing tables on the way are made; `byKey`
tells a dotted key from a header. -/
def reach (byKey : Bool) (change : Change) : (path : List String) → Change
  | [], origin, es => change origin es
  | key :: path, origin, es =>
    match es.get? key with
    | none => do
      let made := if byKey then .dotted else .passing
      let (inner, ies) ← reach byKey change path made []
      return (origin, es.put key (.table inner ies))
    | some (.table inner ies) => do
      if inner = .inline ∨ (byKey ∧ inner = .header) then none
      let (inner, ies) ← reach byKey change path inner ies
      return (origin, es.put key (.table inner ies))
    | some (.tables (latest :: earlier)) => do
      let (_, ies) ← reach byKey change path .header latest
      return (origin, es.put key (.tables (ies :: earlier)))
    | some _ => none

/-- Set a key that must be new. -/
def addKey (key : String) (v : Value) : Change :=
  fun origin es => if (es.get? key).isSome then none else some (origin, es.put key v)

/-- Set a dotted key. The table that gets the key must be one of dotted keys if there is a path, and
must not be one otherwise. -/
def addDotted (path : List String) (key : String) (v : Value) : Change :=
  reach true (fun origin es =>
    if (origin = .dotted) = path.isEmpty then none else addKey key v origin es) path

/-- Define the table of a header. -/
def openTable (key : String) : Change :=
  fun origin es =>
    match es.get? key with
    | none => some (origin, es.put key (.table .header []))
    | some (.table .passing ies) => some (origin, es.put key (.table .header ies))
    | some _ => none

/-- Start another table under a repeated header. -/
def openRepeated (key : String) : Change :=
  fun origin es =>
    match es.get? key with
    | none => some (origin, es.put key (.tables [[]]))
    | some (.tables items) => some (origin, es.put key (.tables ([] :: items)))
    | some _ => none

end TwigTemplate.Toml
