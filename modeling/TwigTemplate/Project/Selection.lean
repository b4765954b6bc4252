import TwigTemplate.FileTree.Resolve
import TwigTemplate.Libraries.Basic

/-!
# What a scan selects

The options of a scan, made ready for one root: which entries are passed over, which directories are
not entered, and which files are templates.
-/

namespace TwigTemplate.Project

/-- What a scan is told. -/
structure ScanOptions where
  excluded : List String
  included : List String
  /-- Endings of file names. -/
  extensions : List String
  disableGitignore : Bool
  deriving DecidableEq, Repr

namespace ScanOptions

def ofConfig (c : Config) : ScanOptions :=
  ⟨c.excluded, c.included, c.files.extensions, c.disableGitignore⟩

def standard : ScanOptions :=
  ofConfig .standard

end ScanOptions

/-- The options made ready for a root. -/
structure Selection where
  root : Path
  /-- The project's ignore file leaves out a path, which may be that of a directory. -/
  ignored : Path → Bool → Bool
  /-- The patterns leave out a path. -/
  excluded : Path → Bool → Bool
  /-- A path below the root matches an include glob. -/
  included : Path → Bool
  extensions : List String

namespace Selection

/-- What is included by the globs among the patterns; others are passed over. -/
def readIncluded [Libraries] (patterns : List String) : Path → Bool :=
  (Libraries.globs? (patterns.filter Libraries.isGlob)).getD fun _ => false

/-- What is left out by the ignore file of a project, if it has one. -/
def readIgnored [Libraries] (t : FileTree) (root : Path) : Path → Bool → Bool :=
  ((t.read? (root.child ".gitignore")).bind (Libraries.ignoreFile? root)).getD fun _ _ => false

/-- What is left out by the patterns, unless one of them is no rule. -/
def readExcluded [Libraries] (root : Path) (patterns : List String) :
    Except Failure (Path → Bool → Bool) :=
  match patterns.find? fun pattern => !Libraries.isRule pattern with
  | some pattern => .error (.invalidExcludePattern pattern)
  | none =>
    match Libraries.rules? root patterns with
    | some excluded => .ok excluded
    | none => .error (.invalidExcludePattern (", ".intercalate patterns))

def make [Libraries] (t : FileTree) (root : Path) (o : ScanOptions) : Except Failure Selection := do
  let excluded ← readExcluded root o.excluded
  let ignored := if o.disableGitignore then fun _ _ => false else readIgnored t root
  return ⟨root, ignored, excluded, readIncluded o.included, o.extensions⟩

/-- The ignore file or the patterns leave a path out. -/
def leavesOut (s : Selection) (path : Path) (isDirectory : Bool) : Bool :=
  s.ignored path isDirectory || s.excluded path isDirectory

/-- Directories that are never entered. -/
def isSkippedName (name : String) : Bool :=
  name.startsWith "." || name = "node_modules" || name = "vendor" || name = "target"

/-- The name has one of the endings. -/
def hasExtension (s : Selection) (path : Path) : Bool :=
  match path.fileName? with
  | some name => s.extensions.any fun extension => Config.hasExtension extension.toList name.toList
  | none => false

/-- The path below the root matches an include glob. -/
def isIncluded (s : Selection) (path : Path) : Bool :=
  match Path.below? s.root path with
  | some path => s.included path
  | none => false

/-- A file is a template by its name or by an include glob. -/
def wants (s : Selection) (path : Path) : Bool :=
  s.hasExtension path || s.isIncluded path

end Selection

end TwigTemplate.Project
