/-!
# The grammar of the command line

A command line has two levels: options for every command, then a command with options and arguments
of its own. Each level is a table of switches and of slots for arguments.
-/

namespace TwigTemplate.CommandLine

/-- Why a command line is not carried out. Asking for help or for the version is a reason too. -/
inductive UsageError where
  | displayHelp
  | displayVersion
  | invalidSubcommand
  | unknownArgument
  | invalidValue
  | valueValidation
  | tooManyValues
  | argumentConflict
  | missingRequiredArgument
  deriving DecidableEq, Repr

namespace UsageError

def message : UsageError → String
  | .displayHelp => "help was asked for"
  | .displayVersion => "the version was asked for"
  | .invalidSubcommand => "unrecognized subcommand"
  | .unknownArgument => "unexpected argument found"
  | .invalidValue => "invalid value for an argument"
  | .valueValidation => "a number is expected"
  | .tooManyValues => "unexpected value for a flag"
  | .argumentConflict => "an argument cannot be used multiple times"
  | .missingRequiredArgument => "a required argument was not provided"

end UsageError

/-- Everything that can be given on a command line. -/
inductive Parameter where
  | path
  | verbose
  | noColor
  | help
  | version
  | outputFormat
  | strict
  | watch
  | check
  | diff
  | files
  | file
  | line
  | column
  deriving DecidableEq, Repr

namespace Parameter

/-- The slot takes any number of arguments. -/
def repeats (p : Parameter) : Bool :=
  p = .files

end Parameter

structure Switch where
  parameter : Parameter
  long : String
  short : Option Char
  takesValue : Bool
  deriving DecidableEq, Repr

/-- The names of the commands. -/
inductive Name where
  | init
  | check
  | format
  | fold
  | lsp
  | help
  deriving DecidableEq, Repr

namespace Name

def text : Name → String
  | .init => "init"
  | .check => "check"
  | .format => "format"
  | .fold => "fold"
  | .lsp => "lsp"
  | .help => "help"

def all : List Name :=
  [.init, .check, .format, .fold, .lsp, .help]

def ofText? (s : String) : Option Name :=
  all.find? (·.text = s)

end Name

/-- What may stand on a level of the command line. -/
structure Level where
  switches : List Switch
  /-- The parameters that arguments without a switch go to, in order. -/
  slots : List Parameter
  required : List Parameter
  /-- A command may be named. -/
  takesCommand : Bool

namespace Level

def flag (p : Parameter) (long : String) : Switch :=
  ⟨p, long, none, false⟩

/-- The switches of every level. -/
def everywhere : List Switch :=
  [⟨.path, "path", some 'p', true⟩, ⟨.verbose, "verbose", some 'v', false⟩,
    flag .noColor "no-color", ⟨.help, "help", some 'h', false⟩]

def top : Level :=
  ⟨⟨.version, "version", some 'V', false⟩ :: everywhere, [], [], true⟩

def ofName : Name → Level
  | .check =>
    ⟨⟨.outputFormat, "format", none, true⟩ :: flag .strict "strict" :: flag .watch "watch" ::
      everywhere, [.files], [], false⟩
  | .format => ⟨flag .check "check" :: flag .diff "diff" :: everywhere, [.files], [], false⟩
  | .fold => ⟨everywhere, [.file, .line, .column], [.file, .line], false⟩
  | .init | .lsp | .help => ⟨everywhere, [], [], false⟩

def long? (l : Level) (name : List Char) : Option Switch :=
  l.switches.find? (·.long.toList = name)

def short? (l : Level) (c : Char) : Option Switch :=
  l.switches.find? (·.short = some c)

end Level

/-! ## Values -/

/-- How the findings of a check are written. -/
inductive OutputFormat where
  | text
  | json
  | github
  deriving DecidableEq, Repr

namespace OutputFormat

def ofText? (s : String) : Option OutputFormat :=
  match s with
  | "text" => some .text
  | "json" => some .json
  | "github" => some .github
  | _ => none

end OutputFormat

/-- A number of 64 bits in decimal digits, after a plus sign or not. -/
def number? (s : String) : Option Nat :=
  let digits := match s.toList with
    | '+' :: r => r
    | r => r
  if digits.isEmpty || !digits.all Char.isDigit then none
  else
    let n := digits.foldl (fun n c => 10 * n + (c.toNat - 48)) 0
    if n < Nat.pow 2 64 then some n else none

/-- The fault of a value, if it has one. -/
def valueError? (p : Parameter) (value : String) : Option UsageError :=
  match p with
  | .path | .files | .file => if value.isEmpty then some .invalidValue else none
  | .outputFormat => if (OutputFormat.ofText? value).isNone then some .invalidValue else none
  | .line | .column => if (number? value).isNone then some .valueValidation else none
  | _ => none

end TwigTemplate.CommandLine
