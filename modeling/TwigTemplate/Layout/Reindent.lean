import TwigTemplate.Layout.Depth
import TwigTemplate.Nesting
import TwigTemplate.Region.Scan

/-!
# Indenting by block depth

Every line of a document is indented by the number of blocks open around it. A line that begins
inside a template region keeps its text; what starts on such a line does not count.
-/

namespace TwigTemplate.Layout

def eventDeltas : Nesting.Event → List Int
  | .opens _ => [1]
  | .closes _ => [-1]
  | .branch => [-1, 1]

/-- The depth changes made by the statements that start on a line, counted from one. -/
def deltasOn (regions : List Region) (line : Nat) : List Int :=
  (Nesting.events (regions.filter (·.line = line))).flatMap eventDeltas

/-- A line that begins inside a region. -/
def continuesRegion (regions : List Region) (line : Nat) : Bool :=
  regions.any fun r => r.start.line < line && line ≤ r.stop.line

/-- Indent consecutive lines, the first of them with number `line`, from a block depth on. -/
def reindentLines (regions : List Region) (unit : List Char) (keepIndent : Bool) (line depth : Nat) :
    List (List Char) → List (List Char)
  | [] => []
  | cs :: rest =>
    if continuesRegion regions line then
      cs :: reindentLines regions unit keepIndent (line + 1) depth rest
    else
      let (level, next) := lineDepth depth (deltasOn regions line)
      let written :=
        if (Text.trim cs).isEmpty then []
        else indent unit level (if keepIndent then Text.trimEnd cs else Text.trim cs)
      written :: reindentLines regions unit keepIndent (line + 1) next rest

/-- Indent a document, adding `unit` for each open block. With `keepIndent` this comes on top of the
indentation that the lines already have. -/
def reindent (unit : List Char) (keepIndent : Bool) (cs : List Char) : List Char :=
  let regions := (Region.ofDocument cs).filter (·.kind.isTemplate)
  Text.joinWith ['\n'] (reindentLines regions unit keepIndent 1 0 (Text.splitAt '\n' cs))

end TwigTemplate.Layout
