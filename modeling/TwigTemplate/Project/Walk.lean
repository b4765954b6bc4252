import TwigTemplate.Project.Selection

/-!
# Walking a project

The walk enters the directories of a project one after the other and collects the files that are
wanted. It follows links, and it remembers the location of every directory it has entered: to come
to one a second time is a failure, so the walk ends on every tree. A directory with a configuration
of its own is a project of its own and is not entered, unless it lies directly in the root.
-/

namespace TwigTemplate

/-- The configuration file of a project, the first candidate that is there. -/
def Config.find? (t : FileTree) (root : Path) : Option Path :=
  (Config.fileCandidates.map fun segments => root.join ⟨segments⟩).find? t.isFile

namespace Project

namespace Walk

/-- A directory still to be entered. -/
structure Visit where
  path : Path
  isRoot : Bool
  deriving DecidableEq, Repr

/-- The paths of the entries of a directory that are not left out, each with: is it a directory? -/
def entries (t : FileTree) (s : Selection) (place : Location) (path : Path) :
    List (Path × Bool) :=
  ((t.entries place).map fun name => (name, path.child name, t.isDirectory (path.child name)))
    |>.filterMap fun (name, path, isDirectory) =>
      if isDirectory && Selection.isSkippedName name then none
      else if s.leavesOut path isDirectory then none
      else some (path, isDirectory)

/-- The directories to enter from a directory. -/
def next (t : FileTree) (s : Selection) (place : Location) (v : Visit) : List Visit :=
  (entries t s place v.path).filterMap fun (path, isDirectory) =>
    if isDirectory && (v.isRoot || (Config.find? t path).isNone) then some ⟨path, false⟩ else none

/-- The files wanted in a directory. -/
def found (t : FileTree) (s : Selection) (place : Location) (v : Visit) : List Path :=
  (entries t s place v.path).filterMap fun (path, isDirectory) =>
    if !isDirectory && s.wants path then some path else none

/-- The directories of the tree that were not entered yet. -/
def unvisited (t : FileTree) (visited : List Location) : List Location :=
  t.directories.filter (· ∉ visited)

theorem unvisited_cons_length_lt {t : FileTree} {visited : List Location} {place : Location}
    (hplace : place ∈ t.directories) (hnew : place ∉ visited) :
    (unvisited t (place :: visited)).length < (unvisited t visited).length := by
  have hsub : unvisited t (place :: visited) =
      (unvisited t visited).filter (· ≠ place) := by
    simp only [unvisited, List.filter_filter, List.mem_cons, not_or]
    congr 1
    funext q
    simp
  rw [hsub]
  apply List.length_filter_lt_length_iff_exists.2
  exact ⟨place, by simp [unvisited, hplace, hnew], by simp⟩

/-- Enter the pending directories, the first one first, and those found in it before the others. -/
def run (t : FileTree) (s : Selection) (visited : List Location) :
    List Visit → Except Failure (List Path)
  | [] => .ok []
  | v :: pending =>
    match t.directoryAt? v.path with
    | none => run t s visited pending
    | some place =>
      if place ∈ visited then .error (.linkCycle v.path.text)
      else if place ∈ t.directories then do
        let more ← run t s (place :: visited) (next t s place v ++ pending)
        return found t s place v ++ more
      else run t s visited pending
  termination_by pending => ((unvisited t visited).length, pending.length)
  decreasing_by
    · exact Prod.Lex.right _ (by simp)
    · exact Prod.Lex.left _ _ (unvisited_cons_length_lt ‹_› ‹_›)
    · exact Prod.Lex.right _ (by simp)

end Walk

/-- The templates below a root, in order. -/
def collect [Libraries] (t : FileTree) (root : Path) (o : ScanOptions) :
    Except Failure (List Path) := do
  let s ← Selection.make t root o
  return Path.sort (← Walk.run t s [] [⟨root, true⟩])

end Project

end TwigTemplate
