import TwigTemplate.Diff.Unified
import TwigTemplate.Project.Basic

/-!
# Formatting a project

Formatting first works out the new text of every file and writes nothing. A failure at any file is
the result as a whole. Writing is a step of its own, after it.
-/

namespace TwigTemplate.Project

/-- A file whose formatted text differs from what it holds. -/
structure Update where
  path : Path
  current : List Char
  formatted : List Char
  deriving DecidableEq, Repr

/-- The unified diff from the current to the formatted text. -/
def Update.diff (u : Update) : List Char :=
  Diff.unified u.path.text u.current u.formatted

/-- What formatting a project comes to. -/
structure Formatting where
  updates : List Update
  /-- How many files were formatted already. -/
  unchanged : Nat
  deriving DecidableEq, Repr

namespace Formatting

def empty : Formatting := ⟨[], 0⟩

def isClean (f : Formatting) : Bool :=
  f.updates.isEmpty

/-- One more file, with its text and its formatted text, in front. -/
def addFile (path : Path) (current formatted : List Char) (f : Formatting) : Formatting :=
  if formatted = current then { f with unchanged := f.unchanged + 1 }
  else { f with updates := ⟨path, current, formatted⟩ :: f.updates }

end Formatting

/-- The formatted text of a document, with every line end as a newline. -/
def formatText (printer : Layout.Printer) (o : Layout.ReflowOptions) (cs : List Char) :
    Except Failure (List Char) :=
  Layout.reformat printer o (Text.unifyNewlines cs)

def formatFiles (t : FileTree) (limit : Nat) (printer : Layout.Printer)
    (o : Layout.ReflowOptions) : List Path → Except Failure Formatting
  | [] => .ok .empty
  | path :: rest => do
    match ← readTemplate t limit path with
    | none => formatFiles t limit printer o rest
    | some cs =>
      let formatted ← formatText printer o cs
      return (← formatFiles t limit printer o rest).addFile path cs formatted

/-- Format every file of a project. Commands are run by `run`, in the root of the project. -/
def format (run : Path → String → Layout.Printer) (t : FileTree) (p : Project) :
    Except Failure Formatting := do
  let printer ← p.config.printer (run p.root)
  formatFiles t p.config.files.maxFileSize printer p.config.reflowOptions p.files

/-- Write updates in order up to the first that cannot be written: the tree after it, and did all
succeed? -/
def writeUpdates (t : FileTree) : List Update → FileTree × Bool
  | [] => (t, true)
  | u :: rest =>
    match t.write? u.path (.text u.formatted) with
    | some t => writeUpdates t rest
    | none => (t, false)

end TwigTemplate.Project
