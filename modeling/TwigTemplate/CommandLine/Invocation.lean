import TwigTemplate.CommandLine.Reading

/-!
# Invocations

What a command line asks for. The options for every command may stand before and after the name of
the command; after it they have precedence.
-/

namespace TwigTemplate.CommandLine

inductive Command where
  | init
  | check (files : List String) (format : OutputFormat) (strict watch : Bool)
  | format (files : List String) (check diff : Bool)
  | fold (file : String) (line column : Nat)
  | lsp
  deriving DecidableEq, Repr

structure Invocation where
  command : Option Command
  path : Option String
  verbose : Bool
  noColor : Bool
  deriving DecidableEq, Repr

namespace Invocation

/-- The command of a level that was read to its end. -/
def commandOf? (name : Name) (s : Reading) : Option Command :=
  let numberOr (p : Parameter) (dflt : Nat) : Nat := ((s.values p).head?.bind number?).getD dflt
  match name with
  | .init => some .init
  | .lsp => some .lsp
  | .help => none
  | .check =>
    let format := ((s.values .outputFormat).head?.bind OutputFormat.ofText?).getD .text
    some (.check (s.values .files) format (s.has .strict) (s.has .watch))
  | .format => some (.format (s.values .files) (s.has .check) (s.has .diff))
  | .fold =>
    some (.fold ((s.values .file).headD "") (numberOr .line 0) (numberOr .column 0))

/-- The invocation of levels that were read to their ends, the last one first. -/
def ofLevels (command : Option Command) (levels : List Reading) : Invocation :=
  let given (p : Parameter) : Bool := levels.any (·.has p)
  ⟨command, levels.findSome? fun s => (s.values .path).head?, given .verbose, given .noColor⟩

/-- What asking for help says: help names commands that exist. -/
def helpError : List String → UsageError
  | [] => .displayHelp
  | [name] => if (Name.ofText? name).isSome then .displayHelp else .invalidSubcommand
  | _ => .invalidSubcommand

/-- The arguments after the name of the program. -/
def parse (args : List String) : Except UsageError Invocation := do
  match ← Reading.start.read .top args with
  | (s, none) => return ofLevels none [← s.settle]
  | (_, some (.help, rest)) => .error (helpError rest)
  | (s, some (name, rest)) =>
    let (t, _) ← Reading.start.read (.ofName name) rest
    let t ← t.settle
    if !(Level.ofName name).required.all t.has then .error .missingRequiredArgument
    else return ofLevels (commandOf? name t) [t, ← s.settle]

end Invocation

end TwigTemplate.CommandLine
