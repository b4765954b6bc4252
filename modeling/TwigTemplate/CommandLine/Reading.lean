import TwigTemplate.CommandLine.Grammar

/-!
# Reading a level of the command line

Arguments are taken one after the other. The values of an option or a slot are collected first and
examined when the next option, the next slot or the end is reached, so a later unknown option is
reported before an earlier bad value.
-/

namespace TwigTemplate.CommandLine

structure Reading where
  /-- What was accepted, with the values given. -/
  given : List (Parameter × List String)
  /-- What is being collected. -/
  pending : Option (Parameter × List String)
  /-- The next argument is the value of an option. -/
  expectsValue : Bool
  /-- How many slots are filled. -/
  filled : Nat
  /-- Only arguments for slots follow. -/
  trailing : Bool
  deriving DecidableEq, Repr

namespace Reading

def start : Reading := ⟨[], none, false, 0, false⟩

def has (s : Reading) (p : Parameter) : Bool :=
  s.given.any (·.1 = p)

/-- The values given for a parameter. -/
def values (s : Reading) (p : Parameter) : List String :=
  (s.given.filter (·.1 = p)).flatMap (·.2)

/-- Accept values, unless the parameter was given before or a value is at fault. -/
def accept (s : Reading) (p : Parameter) (values : List String) : Except UsageError Reading :=
  if s.has p && !p.repeats then .error .argumentConflict
  else match values.findSome? (valueError? p) with
    | some e => .error e
    | none => .ok { s with given := s.given ++ [(p, values)] }

/-- Accept what was collected. -/
def settle (s : Reading) : Except UsageError Reading :=
  match s.pending with
  | none => .ok s
  | some (_, []) => .error .invalidValue
  | some (p, values) => { s with pending := none, expectsValue := false }.accept p values

/-- A switch without a value. -/
def turnOn (s : Reading) (p : Parameter) : Except UsageError Reading := do
  let s ← s.settle
  match p with
  | .help => .error .displayHelp
  | .version => .error .displayVersion
  | p => s.accept p []

/-- An option with the value written to it, or with the next argument. -/
def takeValue (s : Reading) (p : Parameter) (value : Option String) : Except UsageError Reading := do
  let s ← s.settle
  match value with
  | some value => s.accept p [value]
  | none => return { s with pending := some (p, []), expectsValue := true }

/-- An argument that starts with two hyphens. -/
def longSwitch (level : Level) (s : Reading) (cs : List Char) : Except UsageError Reading :=
  let name := cs.takeWhile (· ≠ '=')
  let value := match cs.dropWhile (· ≠ '=') with
    | _ :: value => some (String.ofList value)
    | [] => none
  match level.long? name with
  | none => .error .unknownArgument
  | some switch =>
    if switch.takesValue then s.takeValue switch.parameter value
    else if value.isSome then .error .tooManyValues
    else s.turnOn switch.parameter

/-- The letters of an argument that starts with one hyphen. -/
def shortSwitches (level : Level) (s : Reading) : List Char → Except UsageError Reading
  | [] => .ok s
  | c :: r =>
    match level.short? c with
    | none => .error .unknownArgument
    | some switch =>
      if switch.takesValue then
        s.takeValue switch.parameter <| match r with
          | [] => none
          | '=' :: value => some (String.ofList value)
          | value => some (String.ofList value)
      else do shortSwitches level (← s.turnOn switch.parameter) r

/-- An argument for the next slot. -/
def fillSlot (level : Level) (s : Reading) (arg : String) : Except UsageError Reading :=
  match level.slots[s.filled]? with
  | none =>
    if level.takesCommand && !(s.trailing && (Name.ofText? arg).isSome) then
      .error .invalidSubcommand
    else .error .unknownArgument
  | some p =>
    match s.pending with
    | some (q, values) =>
      if q = p && p.repeats then .ok { s with pending := some (p, values ++ [arg]) }
      else do collect (← s.settle) p
    | none => collect s p
where
  collect (s : Reading) (p : Parameter) : Except UsageError Reading :=
    .ok { s with
      pending := some (p, [arg])
      filled := if p.repeats then s.filled else s.filled + 1 }

/-- One argument that names no command. -/
def step (level : Level) (s : Reading) (arg : String) : Except UsageError Reading :=
  if s.trailing then s.fillSlot level arg
  else match arg.toList with
    | ['-', '-'] => .ok { s with trailing := true }
    | '-' :: '-' :: cs => s.longSwitch level cs
    | '-' :: c :: cs => s.shortSwitches level (c :: cs)
    | _ =>
      match s.expectsValue, s.pending with
      | true, some (p, values) =>
        .ok { s with pending := some (p, values ++ [arg]), expectsValue := false }
      | _, _ => s.fillSlot level arg

/-- The command that an argument names where it stands. -/
def command? (level : Level) (s : Reading) (arg : String) : Option Name :=
  if level.takesCommand && !s.trailing && !s.expectsValue then Name.ofText? arg else none

/-- Read a level up to the name of a command, which comes back with the arguments after it. -/
def read (level : Level) (s : Reading) :
    List String → Except UsageError (Reading × Option (Name × List String))
  | [] => .ok (s, none)
  | arg :: rest =>
    match s.command? level arg with
    | some name => .ok (s, some (name, rest))
    | none => do read level (← s.step level arg) rest

end Reading

end TwigTemplate.CommandLine
