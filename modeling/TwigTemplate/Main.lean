import TwigTemplate.CommandLine.Run
import TwigTemplate.Libraries.Standard
import TwigTemplate.Shell.Printer

/-!
# The program

The files of the current directory and of the root are read into a tree, the command line is carried
out on it, and files that it changed are written. All decisions fall on the tree; what is here moves
files in and out.
-/

namespace TwigTemplate.Disk

/-- The names on the way to an absolute path. -/
def locationOf (path : String) : Location :=
  (Path.ofString path).segments.filter (· ≠ "")

def pathOf (place : Location) : String :=
  "/" ++ "/".intercalate place

/-- The location that a link leads to. A link that leads nowhere is kept as a link to itself, which
leads nowhere too. -/
def targetOf (place : Location) : IO Location := do
  try return locationOf (← IO.FS.realPath (pathOf place)).toString catch _ => return place

/-- The tree with what lies at a location, and with all that is below it or linked from there. Each
link is followed once. -/
partial def load (t : FileTree) (place : Location) : IO FileTree := do
  let path := System.mkFilePath [pathOf place]
  match (← path.symlinkMetadata).type, t.node? place with
  | .dir, node =>
    let names := (← path.readDir).map (·.fileName)
    let t := if node.isSome then t else t.add place .directory
    -- What is added last is listed first.
    names.foldrM (fun name t => load t (place ++ [name])) t
  | .file, none => return t.add place (.file (.ofBytes (← IO.FS.readBinFile path).toList))
  | .symlink, none =>
    let target ← targetOf place
    let t := t.add place (.link target)
    if target = place then return t else load t target
  | _, _ => return t

/-- The tree with what a path leads to, if it leads anywhere. -/
def loadPath (t : FileTree) (path : String) : IO FileTree := do
  try load t (locationOf (← IO.FS.realPath path).toString) catch _ => return t

/-- Write the files in which a tree differs from the disk. -/
def save (before after : FileTree) : IO Unit :=
  (after.changesFrom before).forM fun (place, content) =>
    IO.FS.writeBinFile (pathOf place) ⟨content.bytes.toArray⟩

end TwigTemplate.Disk

open TwigTemplate in
/-- Carries out a command line; the exit code is the status of its outcome. -/
def main (args : List String) : IO UInt32 := do
  let start : FileTree := ⟨[], Disk.locationOf (← IO.currentDir).toString⟩
  let root := match CommandLine.Invocation.parse args with
    | .ok i => (CommandLine.rootOf start i).text
    | .error _ => "."
  let t ← [".", root].foldlM Disk.loadPath start
  let outcome := CommandLine.run Shell.printer t args
  Disk.save t outcome.tree
  outcome.output.forM IO.println
  outcome.errors.forM IO.eprintln
  return outcome.status.toUInt32
