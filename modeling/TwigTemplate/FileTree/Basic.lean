import TwigTemplate.Text.Measure

/-!
# File trees

A file tree is a value: a table from locations to what lies there. Directories list their entries in
the order of the table, which stands for the order that the file system happens to list them in: it
may be any. Writing gives a new tree, which differs from the old one at one location (`node?_put`).
-/

namespace TwigTemplate

/-- Where something lies: the names from the top directory down. -/
abbrev Location := List String

/-- What a file holds: text, or bytes that are no text. -/
inductive Content where
  | text (cs : List Char)
  | binary (bytes : List UInt8)
  deriving DecidableEq, Repr

namespace Content

/-- Bytes that are UTF-8 are text. -/
def ofBytes (bytes : List UInt8) : Content :=
  match String.fromUTF8? ⟨bytes.toArray⟩ with
  | some s => .text s.toList
  | none => .binary bytes

def bytes : Content → List UInt8
  | .text cs => (String.ofList cs).toUTF8.toList
  | .binary bytes => bytes

/-- The number of bytes. -/
def size : Content → Nat
  | .text cs => Text.width8 cs
  | .binary bytes => bytes.length

end Content

/-- What lies at a location. -/
inductive Node where
  | directory
  | file (content : Content)
  /-- A link stands for another location. -/
  | link (target : Location)
  deriving DecidableEq, Repr

structure FileTree where
  nodes : List (Location × Node)
  /-- The directory that relative paths start from. -/
  current : Location
  deriving DecidableEq, Repr

namespace FileTree

/-- The top directory is always there. -/
def node? (t : FileTree) (place : Location) : Option Node :=
  if place = [] then some .directory else t.nodes.lookup place

/-- The tree with a node at a location, in place of what was there. What is new is listed first. -/
def put (t : FileTree) (place : Location) (node : Node) : FileTree :=
  { t with nodes :=
      if (t.nodes.lookup place).isSome then
        t.nodes.map fun (p, n) => if p = place then (p, node) else (p, n)
      else (place, node) :: t.nodes }

/-- The tree without what lies at a location. -/
def remove (t : FileTree) (place : Location) : FileTree :=
  { t with nodes := t.nodes.filter (·.1 ≠ place) }

/-- The locations on the way to `place`, from the top down, `place` included. -/
def waysTo (place : Location) : List Location :=
  (List.range place.length).map fun n => place.take (n + 1)

/-- The tree with a directory at each of the given locations where nothing is. -/
def addDirectories (t : FileTree) (places : List Location) : FileTree :=
  places.foldl (fun t place => if (t.node? place).isSome then t else t.put place .directory) t

/-- The tree with a node at a location and the directories that lead to it. -/
def add (t : FileTree) (place : Location) (node : Node) : FileTree :=
  (t.addDirectories (waysTo place.dropLast)).put place node

/-- The name of an entry of a directory. -/
def entryOf? : (directory place : Location) → Option String
  | [], [name] => some name
  | d :: directory, p :: place => if d = p then entryOf? directory place else none
  | _, _ => none

/-- The names in a directory, in the order of the table. -/
def entries (t : FileTree) (place : Location) : List String :=
  t.nodes.filterMap fun (p, _) => entryOf? place p

/-- The locations of all directories. -/
def directories (t : FileTree) : List Location :=
  [] :: t.nodes.filterMap fun (p, node) => if node = .directory then some p else none

/-- The files that are new in `after`, or that hold something else than in `before`. -/
def changesFrom (after before : FileTree) : List (Location × Content) :=
  after.nodes.filterMap fun (place, node) =>
    match node with
    | .file content => if before.node? place = some node then none else some (place, content)
    | _ => none

theorem lookup_cons_eq {α β : Type} [BEq α] [LawfulBEq α] [DecidableEq α] (q p : α) (value : β)
    (table : List (α × β)) :
    ((p, value) :: table).lookup q = if q = p then some value else table.lookup q := by
  by_cases h : q = p
  · rw [h, List.lookup_cons_self, if_pos rfl]
  · rw [List.lookup_cons, beq_false_of_ne h, if_neg h]

theorem lookup_replace (place q : Location) (node : Node) (nodes : List (Location × Node)) :
    (nodes.map fun (p, n) => if p = place then (p, node) else (p, n)).lookup q =
      if q = place then (nodes.lookup q).map fun _ => node else nodes.lookup q := by
  induction nodes with
  | nil => simp
  | cons entry rest ih =>
    obtain ⟨p, n⟩ := entry
    simp only [List.map_cons]
    split <;> simp only [lookup_cons_eq, ih] <;> grind

theorem node?_put (t : FileTree) {place : Location} (hplace : place ≠ []) (node : Node)
    (q : Location) : (t.put place node).node? q = if q = place then some node else t.node? q := by
  have hlookup : (t.put place node).nodes.lookup q =
      if q = place then some node else t.nodes.lookup q := by
    rw [put]
    split
    · next hold =>
      obtain ⟨old, hold⟩ := Option.isSome_iff_exists.mp hold
      rw [lookup_replace]
      split
      · next heq => rw [heq, hold, Option.map_some]
      · rfl
    · rw [lookup_cons_eq]
  simp only [node?, hlookup]
  by_cases h : q = place <;> by_cases hq : q = [] <;> simp_all

end FileTree

end TwigTemplate
