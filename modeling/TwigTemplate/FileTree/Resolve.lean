import TwigTemplate.FileTree.Basic
import TwigTemplate.Path

/-!
# Where a path leads

A path is followed segment by segment. A link on the way is replaced by its target, and a path that
meets too many links leads nowhere, so that links in a circle do no harm. What is found that way is
never a link itself. The last segment may name nothing yet; then the path leads to a vacant place,
where a file can be written.
-/

namespace TwigTemplate.FileTree

/-- Where a path leads. -/
inductive Place where
  | occupied (place : Location)
  /-- Nothing is there, but the directory around it exists. -/
  | vacant (place : Location)
  deriving DecidableEq, Repr

/-- How many links may be met on the way. -/
def linkLimit : Nat := 40

/-- Follow segments from a directory. From a link `onLink` goes on, with its target and the segments
that are left. -/
def followTo (t : FileTree) (onLink : List String → Option Place) (place : Location) :
    List String → Option Place
  | [] => some (.occupied place)
  | segment :: rest =>
    if segment = "" || segment = "." then followTo t onLink place rest
    else if segment = ".." then followTo t onLink place.dropLast rest
    else
      let next := place ++ [segment]
      match t.node? next with
      | none => if rest = [] then some (.vacant next) else none
      | some .directory => followTo t onLink next rest
      | some (.file _) => if rest = [] then some (.occupied next) else none
      | some (.link target) => onLink (target ++ rest)

/-- Follow segments from a directory, over so many links and no more. -/
def follow (t : FileTree) : (links : Nat) → Location → List String → Option Place
  | 0 => followTo t fun _ => none
  | links + 1 => followTo t (follow t links [])

/-- Where a path leads, from the current directory or the top. -/
def locate? (t : FileTree) (p : Path) : Option Place :=
  if p.segments = [""] then none
  else t.follow linkLimit (if p.isAbsolute then [] else t.current) p.segments

/-- The location of what a path leads to. -/
def resolve? (t : FileTree) (p : Path) : Option Location :=
  match t.locate? p with
  | some (.occupied place) => some place
  | _ => none

/-- The location of the directory that a path leads to. -/
def directoryAt? (t : FileTree) (p : Path) : Option Location :=
  (t.resolve? p).filter fun place => t.node? place = some .directory

def isDirectory (t : FileTree) (p : Path) : Bool :=
  (t.directoryAt? p).isSome

/-- What the file holds that a path leads to. -/
def read? (t : FileTree) (p : Path) : Option Content :=
  match (t.resolve? p).bind t.node? with
  | some (.file content) => some content
  | _ => none

def isFile (t : FileTree) (p : Path) : Bool :=
  (t.read? p).isSome

/-- The size that a directory is shown with. -/
def directorySize : Nat := 4096

/-- The size of what a path leads to. -/
def size? (t : FileTree) (p : Path) : Option Nat :=
  match (t.resolve? p).bind t.node? with
  | some (.file content) => some content.size
  | some .directory => some directorySize
  | _ => none

/-- The tree after a file was written, over the old one if there was one. -/
def write? (t : FileTree) (p : Path) (content : Content) : Option FileTree :=
  match t.locate? p with
  | some (.vacant place) => some (t.put place (.file content))
  | some (.occupied place) =>
    match t.node? place with
    | some (.file _) => some (t.put place (.file content))
    | _ => none
  | none => none

end TwigTemplate.FileTree
