import TwigTemplate.Statement

/-!
# Nesting events

The statements of a document, read for what they do to the nesting of blocks: each opens a block,
closes one, or starts the next section of the innermost one.
-/

namespace TwigTemplate.Nesting

inductive Event where
  | opens (b : Block)
  | closes (b : Block)
  | branch
  deriving DecidableEq, Repr

def Event.ofRole? : Role → Option Event
  | .opens b => some (.opens b)
  | .closes b => some (.closes b)
  | .branch => some .branch
  | .inline => none
  | .unknown => none

/-- The event of a terminated statement. -/
def Event.ofRegion? (r : Region) : Option Event :=
  if r.kind = .template .statement then Event.ofRole? (Statement.ofContent r.content).role
  else none

/-- The events of some regions, in order. -/
def events (regions : List Region) : List Event :=
  regions.filterMap Event.ofRegion?

end TwigTemplate.Nesting
