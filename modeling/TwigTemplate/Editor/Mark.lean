import TwigTemplate.Editor.Position
import TwigTemplate.Report.Analysis

/-!
# Marks

The findings of a document as an editor shows them: each marks its line from the region that it
belongs to up to the end.
-/

namespace TwigTemplate.Editor

inductive Severity where
  | error
  | warning
  deriving DecidableEq, Repr

structure Mark where
  range : Range
  severity : Severity
  category : Category
  message : String
  deriving DecidableEq, Repr

namespace Mark

/-- The mark of a finding, given the lines of the document. -/
def ofFinding (lines : List (List Char)) (f : Finding) : Mark :=
  let index := f.line - 1
  let line := lines[index]?.getD []
  let start := column16 line (f.column - 1)
  { range := .onLine index start (max (Text.width16 line) start)
    severity := if f.cause.category = .style then .warning else .error
    category := f.cause.category
    message := f.cause.message }

end Mark

/-- The marks of a document, in the order of its report. -/
def marks (o : LintOptions) (cs : List Char) : List Mark :=
  (analyze o cs).findings.map (Mark.ofFinding (Text.lines cs))

end TwigTemplate.Editor
