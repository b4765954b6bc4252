import TwigTemplate.Editor.Position
import TwigTemplate.Fold.Ranges
import TwigTemplate.Project.Formatting

/-!
# Formatting and folding in an editor

Formatting replaces the whole document by one edit, or makes no edit if nothing changes. Folds are
those of the document with every line end as a newline, so their lines agree with those of a
formatted file.
-/

namespace TwigTemplate.Editor

/-- A range and the text that takes its place. -/
structure Edit where
  range : Range
  newText : List Char
  deriving DecidableEq, Repr

/-- The edits that format a document. -/
def formatEdits (printer : Layout.Printer) (o : Layout.ReflowOptions) (cs : List Char) :
    Except Failure (List Edit) := do
  let formatted ← Project.formatText printer o cs
  return if formatted = cs then [] else [⟨⟨⟨0, 0⟩, endPosition cs⟩, formatted⟩]

/-- The folds of a document. -/
def foldRanges (cs : List Char) : List Range :=
  let cs := Text.unifyNewlines cs
  let lines := Text.splitAt '\n' cs
  (Fold.ranges cs).map fun s =>
    let closing := lines[s.toLine]?.getD []
    ⟨⟨s.fromLine, s.fromColumn⟩, ⟨s.toLine, column16 closing s.toColumn⟩⟩

end TwigTemplate.Editor
