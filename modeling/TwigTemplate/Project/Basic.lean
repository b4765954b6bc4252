import TwigTemplate.Project.Walk

/-!
# Projects

A project is a root, its configuration and the templates found below it. Checking reads every
template and reports on it; files that are not text are passed over, and a file that is too large or
cannot be read fails the whole check.
-/

namespace TwigTemplate

/-- The configuration that a text sets. -/
def Config.ofText [Libraries] (cs : List Char) : Except Failure Config :=
  match Libraries.config? cs with
  | some c => .ok c
  | none => .error .malformedConfig

/-- The configuration of a project, if it has one. -/
def Config.load [Libraries] (t : FileTree) (root : Path) : Except Failure (Option Config) :=
  match Config.find? t root with
  | none => .ok none
  | some path =>
    match t.read? path with
    | some (.text cs) => (Config.ofText cs).map some
    | _ => .error .fileAccess

structure Project where
  root : Path
  config : Config
  files : List Path
  deriving DecidableEq, Repr

namespace Project

/-- The standard configuration and no files. -/
def empty (root : Path) : Project :=
  ⟨root, .standard, []⟩

/-- The configuration of a root and every template below it. -/
def scan [Libraries] (t : FileTree) (root : Path) : Except Failure Project := do
  let config := (← Config.load t root).getD .standard
  return ⟨root, config, ← collect t root (.ofConfig config)⟩

def withFiles (p : Project) (files : List Path) : Project :=
  { p with files }

/-- The text of a template; files that are not text have none. -/
def readTemplate (t : FileTree) (limit : Nat) (path : Path) : Except Failure (Option (List Char)) :=
  match t.size? path with
  | none => .error .fileAccess
  | some size =>
    if limit < size then .error (.fileTooLarge path.text size limit)
    else match t.read? path with
      | some (.text cs) => .ok (some cs)
      | some (.binary _) => .ok none
      | none => .error .fileAccess

/-- The files of a project that are text, each with its text. -/
def readAll (t : FileTree) (limit : Nat) : List Path → Except Failure (List (Path × List Char))
  | [] => .ok []
  | path :: rest => do
    let cs? ← readTemplate t limit path
    let more ← readAll t limit rest
    return (cs?.map fun cs => (path, cs)).toList ++ more

/-- What a check says about one file. -/
structure FileReport where
  path : Path
  report : Report

/-- The reports on the files of a project, those without findings included. -/
def check (t : FileTree) (p : Project) : Except Failure (List FileReport) := do
  let texts ← readAll t p.config.files.maxFileSize p.files
  return texts.map fun (path, cs) => ⟨path, analyze p.config.lint.options cs⟩

namespace FileReport

def errorCount (reports : List FileReport) : Nat :=
  reports.foldr (fun r n => r.report.errorCount + n) 0

def warningCount (reports : List FileReport) : Nat :=
  reports.foldr (fun r n => r.report.warningCount + n) 0

/-- A check passes without errors, and with `strict` without warnings too. -/
def isOk (strict : Bool) (reports : List FileReport) : Bool :=
  errorCount reports == 0 && (!strict || warningCount reports == 0)

def withFindings (reports : List FileReport) : List FileReport :=
  reports.filter fun r => !r.report.isEmpty

end FileReport

end Project

end TwigTemplate
