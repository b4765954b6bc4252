/-!
# Depth changes of a line

What opens and closes on a line is a list of changes, each adding to the depth or taking from it.
The line itself stands at the lowest depth that its changes reach; the lines after it at the depth
that they end with.
-/

namespace TwigTemplate.Layout

/-- The lowest sum of a start of the list (the empty start included), and the sum of it all, both
counted from `sum` on with `lowest` reached so far. -/
def extremes (sum lowest : Int) : List Int → Int × Int
  | [] => (lowest, sum)
  | d :: ds => extremes (sum + d) (min lowest (sum + d)) ds

/-- How far a line steps back before it is written, and how far the lines after it step in again. -/
def depthChange (deltas : List Int) : Nat × Nat :=
  let (lowest, sum) := extremes 0 0 deltas
  (lowest.natAbs, (sum - lowest).natAbs)

/-- The depth of a line with the given changes, and the depth after it. -/
def lineDepth (depth : Nat) (deltas : List Int) : Nat × Nat :=
  let (dedent, net) := depthChange deltas
  (depth - dedent, depth - dedent + net)

/-- A text with a number of indentation units in front. -/
def indent (unit : List Char) (depth : Nat) (cs : List Char) : List Char :=
  (List.replicate depth unit).flatten ++ cs

end TwigTemplate.Layout
