import TwigTemplate.CommandLine.Invocation
import TwigTemplate.CommandLine.Listing
import TwigTemplate.Fold.Query
import TwigTemplate.Project.Formatting

/-!
# Carrying out an invocation

A command works on a file tree. It ends with a status (0 for success, 1 for findings or files that
would change, 2 for a failure), with lines on the standard output, lines on the standard error
stream, and with the tree as it leaves it. Everything is a value, so a run can be reasoned about
before any file is touched.
-/

namespace TwigTemplate.CommandLine

structure Outcome where
  status : Nat
  output : List String
  errors : List String
  tree : FileTree
  deriving DecidableEq, Repr

/-- Why a command gives up. -/
inductive Fault where
  | failure (f : Failure)
  /-- A file could not be read or written by the command itself. -/
  | access (path : Path)
  deriving DecidableEq, Repr

namespace Fault

def lines : Fault → List String
  | .failure f => [f.code, f.message]
  | .access path => ["error: cannot access " ++ path.text]

end Fault

namespace Outcome

def ok (t : FileTree) (output : List String) : Outcome :=
  ⟨0, output, [], t⟩

def fail (t : FileTree) (fault : Fault) : Outcome :=
  ⟨2, [], fault.lines, t⟩

/-- Lines written before the rest. -/
def after (lines : List String) (o : Outcome) : Outcome :=
  { o with output := lines ++ o.output }

end Outcome

/-- What runs the command lines of printers in a directory of a tree. -/
abbrev Runner := FileTree → Path → String → Layout.Printer

/-- Where the current directory is. -/
def currentPath (t : FileTree) : Path :=
  ⟨"" :: if t.current.isEmpty then [""] else t.current⟩

def rootOf (t : FileTree) (i : Invocation) : Path :=
  match i.path with
  | some path => Path.ofString path
  | none => currentPath t

/-- The project at the root, with the files named instead of its own if any are named. -/
def projectOf (root : Path) (p : Project) (files : List String) : Project :=
  if files.isEmpty then p else p.withFiles (files.map fun file => root.join (Path.ofString file))

/-- Scan the project and go on with it. -/
def withProject [Libraries] (t : FileTree) (i : Invocation) (files : List String)
    (next : Path → Project → Outcome) : Outcome :=
  let root := rootOf t i
  match Project.scan t root with
  | .error f => .fail t (.failure f)
  | .ok p =>
    let scanned := "Scanned project: " ++ toString p.files.length ++ " template file(s)"
    (next root (projectOf root p files)).after (if i.verbose then [scanned] else [])

/-! ## Commands -/

def init (t : FileTree) (i : Invocation) : Outcome :=
  let root := rootOf t i
  match Config.find? t root with
  | some path => .ok t ["Config file already exists: " ++ path.text]
  | none =>
    let path := root.child "twigkit.toml"
    match t.write? path (.text Config.initialText.toList) with
    | none => .fail t (.access path)
    | some t =>
      .ok t ["Created twigkit.toml", "", "Next steps:",
        "  1. Adjust the [lint] and [format] sections to taste",
        "  2. Run `twigkit check` to analyze your templates",
        "  3. Run `twigkit format` to re-indent them"]

def check [Libraries] (t : FileTree) (i : Invocation) (files : List String) (format : OutputFormat)
    (strict : Bool) : Outcome :=
  withProject t i files fun root p =>
    match p.check t with
    | .error f => .fail t (.failure f)
    | .ok reports =>
      let strict := strict || p.config.lint.strict
      let ok := Project.FileReport.isOk strict reports
      let status := if ok then 0 else 1
      match format with
      | .json => ⟨status, [Listing.json root ok reports], [], t⟩
      | .github =>
        ⟨status, Listing.annotations root strict reports, [Listing.summary reports], t⟩
      | .text => ⟨status, Listing.text root reports, [], t⟩

/-- Show what formatting would change, and change nothing. -/
def preview (t : FileTree) (root : Path) (diff : Bool) (f : Project.Formatting) : Outcome :=
  if f.isClean then .ok t ["All " ++ toString f.unchanged ++ " file(s) are formatted."]
  else
    let diffs := if diff then f.updates.flatMap fun u => Text.lines u.diff else []
    let names := f.updates.map fun u => "would reformat " ++ Listing.nameOf root u.path
    let total := toString f.updates.length ++
      " file(s) would be reformatted. Run `twigkit format` to fix."
    ⟨1, diffs.map String.ofList, names ++ [total], t⟩

/-- Write what formatting changes. -/
def writeBack (t : FileTree) (i : Invocation) (root : Path) (f : Project.Formatting) : Outcome :=
  if f.isClean then .ok t ["All " ++ toString f.unchanged ++ " file(s) are already formatted."]
  else
    let names := f.updates.map fun u => "  " ++ Listing.nameOf root u.path
    match Project.writeUpdates t f.updates with
    | (t, false) => .fail t (.failure .fileAccess)
    | (t, true) =>
      .ok t (("Formatted " ++ toString f.updates.length ++ " file(s).") ::
        if i.verbose then names else [])

def format [Libraries] (run : Runner) (t : FileTree) (i : Invocation) (files : List String)
    (check diff : Bool) : Outcome :=
  withProject t i files fun root p =>
    match p.format (run t) t with
    | .error f => .fail t (.failure f)
    | .ok f => if check || diff then preview t root diff f else writeBack t i root f

open Text in
def spanText (s : Fold.Span) : String :=
  Json.object [("fromLine", Json.number s.fromLine), ("fromCol", Json.number s.fromColumn),
    ("toLine", Json.number s.toLine), ("toCol", Json.number s.toColumn)]

def fold (t : FileTree) (i : Invocation) (file : String) (line : Nat) : Outcome :=
  let path := (rootOf t i).join (Path.ofString file)
  match t.read? path with
  | some (.text cs) =>
    match Fold.resolve? (Text.unifyNewlines cs) line with
    | some span => .ok t [spanText span]
    | none => .ok t ["no fold"]
  | _ => .fail t (.access path)

/-- Carry out an invocation. The editor service and watching have no part in it: they answer events
from outside. -/
def Invocation.run [Libraries] (run : Runner) (t : FileTree) (i : Invocation) : Outcome :=
  match i.command with
  | none => ⟨1, [], ["No subcommand specified. Run `twigkit --help` for usage."], t⟩
  | some .init => init t i
  | some (.check files output strict _) => check t i files output strict
  | some (.format files check diff) => format run t i files check diff
  | some (.fold file line _) => fold t i file line
  | some .lsp => .ok t []

/-- Read the arguments and carry out what they ask for. -/
def run [Libraries] (runner : Runner) (t : FileTree) (args : List String) : Outcome :=
  match Invocation.parse args with
  | .ok i => i.run runner t
  | .error e =>
    if e = .displayHelp || e = .displayVersion then .ok t []
    else ⟨2, [], ["error: " ++ e.message], t⟩

end TwigTemplate.CommandLine
