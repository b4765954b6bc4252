import TwigTemplate.Text.Measure

/-!
# Points of a document

A point counts lines and columns from one, in characters, and bytes from zero. Moving a point past
a text is the only way a scan makes a new one, so the three counts never part.
-/

namespace TwigTemplate

structure Point where
  line : Nat
  column : Nat
  /-- Bytes of the UTF-8 form before the point. -/
  offset : Nat
  deriving DecidableEq, Repr

namespace Point

/-- Where a document starts. -/
def origin : Point := ⟨1, 1, 0⟩

def step (p : Point) (c : Char) : Point :=
  if c = '\n' then ⟨p.line + 1, 1, p.offset + c.utf8Size⟩
  else ⟨p.line, p.column + 1, p.offset + c.utf8Size⟩

/-- The point after `cs`, which starts at `p`. -/
def advance (p : Point) (cs : List Char) : Point :=
  cs.foldl step p

end Point

end TwigTemplate
