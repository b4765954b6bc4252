import TwigTemplate.Text.Lines

/-!
# Paths

A path is a text cut at its slashes, and it is shown as it was given: `./a//b` keeps its dot and its
double slash. What it means is read off its components, where a dot (but for a leading one) and an
empty segment count for nothing. Components also give the order in which paths are listed.
-/

namespace TwigTemplate

/-- A path by its segments, the texts between the slashes. An absolute path has an empty first
segment; the empty path has one segment, which is empty. -/
structure Path where
  segments : List String
  deriving DecidableEq, Repr

namespace Path

/-- What a path says, step by step. -/
inductive Component where
  /-- The top directory. -/
  | top
  /-- A leading dot. -/
  | here
  /-- Two dots. -/
  | up
  | name (name : String)
  deriving DecidableEq, Repr

def ofText (cs : List Char) : Path :=
  ⟨(Text.splitAt '/' cs).map String.ofList⟩

def ofString (s : String) : Path :=
  ofText s.toList

/-- The path as it is shown. -/
def text (p : Path) : String :=
  "/".intercalate p.segments

/-- The current directory. -/
def here : Path := ⟨["."]⟩

def isAbsolute (p : Path) : Bool :=
  match p.segments with
  | "" :: _ :: _ => true
  | _ => false

/-- What a segment after the first one stands for. -/
def componentOf? (segment : String) : Option Component :=
  if segment = "" || segment = "." then none
  else if segment = ".." then some .up
  else some (.name segment)

def components (p : Path) : List Component :=
  match p.segments with
  | "" :: segment :: rest => .top :: (segment :: rest).filterMap componentOf?
  | "." :: rest => .here :: rest.filterMap componentOf?
  | segments => segments.filterMap componentOf?

/-- The name at the end of a path, if it ends with one. -/
def fileName? (p : Path) : Option String :=
  match p.components.getLast? with
  | some (.name name) => some name
  | _ => none

/-- A path that starts where `p` leads, unless it is absolute. -/
def join (p child : Path) : Path :=
  if child.isAbsolute || p.segments = [""] then child
  else if p.segments.getLast? = some "" then ⟨p.segments.dropLast ++ child.segments⟩
  else ⟨p.segments ++ child.segments⟩

/-- The path of the entry `name` of the directory `p`. -/
def child (p : Path) (name : String) : Path :=
  p.join ⟨[name]⟩

/-! ## Paths below a root -/

/-- The segments after those that make up the given components. -/
def afterComponents? : List Component → List String → Option (List String)
  | [], segments => some segments
  | c :: rest, segments =>
    match segments.dropWhile (fun s => (componentOf? s).isNone) with
    | [] => none
    | s :: more => if componentOf? s = some c then afterComponents? rest more else none

/-- Segments without those at either end that count for nothing. -/
def trimSegments (segments : List String) : List String :=
  let idle (s : String) := (componentOf? s).isNone
  ((segments.dropWhile idle).reverse.dropWhile idle).reverse

/-- The path from `root` to `p`, if the components of `root` begin those of `p`. -/
def below? (root p : Path) : Option Path :=
  match root.components with
  | [] => some p
  | c :: rest =>
    if p.components.head? = some c then
      (afterComponents? rest p.segments.tail).map fun segments =>
        match trimSegments segments with
        | [] => ⟨[""]⟩
        | segments => ⟨segments⟩
    else none

/-- The path from `root` to `p`, or `p` itself if it is not below `root`. -/
def relativeTo (p root : Path) : Path :=
  (below? root p).getD p

/-! ## Order -/

def Component.rank : Component → Nat
  | .top => 0
  | .here => 1
  | .up => 2
  | .name _ => 3

/-- The order of steps: the top, the leading dot, two dots, then names by their characters. -/
def Component.isBelow : Component → Component → Bool
  | .name a, .name b => a < b
  | a, b => a.rank < b.rank

/-- Component by component, a path before those that go on from it. -/
def precedes : List Component → List Component → Bool
  | [], _ => true
  | _ :: _, [] => false
  | a :: as, b :: bs => if a = b then precedes as bs else a.isBelow b

/-- Paths in the order of their components. -/
def sort (paths : List Path) : List Path :=
  paths.mergeSort fun a b => precedes a.components b.components

end Path

end TwigTemplate
