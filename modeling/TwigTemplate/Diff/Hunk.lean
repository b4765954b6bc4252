import TwigTemplate.Diff.Compaction

/-!
# Hunks

A comparison shows the changes with up to three kept lines around them. Deletions and insertions that
touch are one change, in which the deleted lines come first. Changes with more than six kept lines
between them stand in different hunks.
-/

namespace TwigTemplate.Diff

/-- A stretch of both texts: lines that are kept, or lines that replace others. -/
structure Chunk where
  isKept : Bool
  old : Nat
  oldLength : Nat
  new : Nat
  newLength : Nat
  deriving DecidableEq, Repr

namespace Chunk

def ofEdit (e : Edit) : Chunk :=
  ⟨e.act = .keep, e.old, e.oldLength, e.new, e.newLength⟩

/-- A change and the step after it as one change. The lines of each text start where the step that
has any says. -/
def join (b : Chunk) (e : Edit) : Chunk :=
  { b with
    old := if b.oldLength = 0 && e.act = .delete then e.old else b.old
    oldLength := b.oldLength + e.oldLength
    new := if b.newLength = 0 && e.act = .insert then e.new else b.new
    newLength := b.newLength + e.newLength }

end Chunk

/-- The chunks of a script: neighbouring steps of one sort are joined. -/
def chunksFrom (current : Chunk) : List Edit → List Chunk
  | [] => [current]
  | e :: more =>
    if current.isKept = (Chunk.ofEdit e).isKept then chunksFrom (current.join e) more
    else current :: chunksFrom (Chunk.ofEdit e) more

def chunks : List Edit → List Chunk
  | [] => []
  | e :: more => chunksFrom (Chunk.ofEdit e) more

/-- Kept lines around a change. -/
def context : Nat := 3

/-- The last `n` of some kept lines. -/
def Chunk.keepLast (b : Chunk) (n : Nat) : Chunk :=
  { b with
    old := b.old + (b.oldLength - n), oldLength := min b.oldLength n
    new := b.new + (b.newLength - n), newLength := min b.newLength n }

/-- The first `n` of some kept lines. -/
def Chunk.keepFirst (b : Chunk) (n : Nat) : Chunk :=
  { b with oldLength := min b.oldLength n, newLength := min b.newLength n }

/-- Shorten kept lines at the start to the context. -/
def trimFirst : List Chunk → List Chunk
  | b :: more => (if b.isKept then b.keepLast context else b) :: more
  | [] => []

/-- Shorten kept lines at the end to the context. -/
def trimLast : List Chunk → List Chunk
  | [] => []
  | [b] => [if b.isKept then b.keepFirst context else b]
  | b :: next :: more => b :: trimLast (next :: more)

/-- Cut chunks where many lines are kept; `pending` holds the current hunk backwards. -/
def groupFrom (pending : List Chunk) : List Chunk → List (List Chunk)
  | [] => [pending.reverse]
  | b :: more =>
    if b.isKept && 2 * context < b.oldLength then
      (b.keepFirst context :: pending).reverse :: groupFrom [b.keepLast context] more
    else groupFrom (b :: pending) more

/-- The hunks of a script; kept lines alone make none. -/
def hunks (steps : List Edit) : List (List Chunk) :=
  (groupFrom [] (trimLast (trimFirst (chunks steps)))).filter (·.any (!·.isKept))

end TwigTemplate.Diff
