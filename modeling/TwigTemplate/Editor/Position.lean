import TwigTemplate.Text.Lines
import TwigTemplate.Text.Measure

/-!
# Positions in an editor

An editor counts lines from zero and columns in UTF-16 units. A column that lies inside a character
stands for the place after it, and one past the end of its line for the end.
-/

namespace TwigTemplate.Editor

/-- A place in a document. An editor sends both counts in 32 bits. Documents of 2^32 lines and
lines of 2^32 units are not modelled, so the counts have no bound here. -/
structure Position where
  line : Nat
  character : Nat
  deriving DecidableEq, Repr

structure Range where
  start : Position
  stop : Position
  deriving DecidableEq, Repr

/-- The UTF-16 column of the character with the index `column`. -/
def column16 (line : List Char) (column : Nat) : Nat :=
  Text.width16 (line.take column)

/-- The line of a position in two parts, before and after the position. -/
def lineAt? (cs : List Char) (p : Position) : Option (List Char × List Char) :=
  (Text.splitAt '\n' cs)[p.line]?.map fun line => Text.cutAt16 p.character (Text.dropReturn line)

/-- The position after the last character. -/
def endPosition (cs : List Char) : Position :=
  ⟨Text.newlineCount cs, Text.width16 ((Text.splitAt '\n' cs).getLast?.getD [])⟩

/-- A range of a line, from one width to another. -/
def Range.onLine (line start stop : Nat) : Range :=
  ⟨⟨line, start⟩, ⟨line, stop⟩⟩

end TwigTemplate.Editor
