import TwigTemplate.Diff.Hunk

/-!
# Unified diffs

The text form of a comparison: two lines that name the files, then the hunks. A hunk starts with the
line ranges that it covers; kept, deleted and inserted lines follow, each with its own mark. A line
without an end is followed by a remark.

Texts that are equal have the empty diff.
-/

namespace TwigTemplate.Diff

/-- A range of lines counted from one. An empty range names the line before it, a single line just
its number. -/
def rangeText (start length : Nat) : String :=
  if length = 1 then toString (start + 1)
  else toString (if length = 0 then start else start + 1) ++ "," ++ toString length

def markedLine (mark : Char) (line : Line) : List Char :=
  mark :: line ++ if lacksEnd line then "\n\\ No newline at end of file\n".toList else []

def chunkText (s : Sides) (b : Chunk) : List Char :=
  let old := (s.old.drop b.old).take b.oldLength
  let new := (s.new.drop b.new).take b.newLength
  if b.isKept then old.flatMap (markedLine ' ')
  else old.flatMap (markedLine '-') ++ new.flatMap (markedLine '+')

/-- The ranges that a hunk covers, from the start of its first chunk to the end of its last. -/
def hunkHeader (first last : Chunk) : String :=
  "@@ -" ++ rangeText first.old (last.old + last.oldLength - first.old) ++ " +" ++
    rangeText first.new (last.new + last.newLength - first.new) ++ " @@\n"

def hunkText (s : Sides) (hunk : List Chunk) : List Char :=
  match hunk.head?, hunk.getLast? with
  | some first, some last => (hunkHeader first last).toList ++ hunk.flatMap (chunkText s)
  | _, _ => []

/-- The unified diff from one text to another, under one name. -/
def unified (name : String) (old new : List Char) : List Char :=
  let s : Sides := ⟨linesOf old, linesOf new⟩
  let found := hunks (compact s (script s.old s.new))
  if found.isEmpty then []
  else ("--- " ++ name ++ "\n+++ " ++ name ++ "\n").toList ++ found.flatMap (hunkText s)

end TwigTemplate.Diff
