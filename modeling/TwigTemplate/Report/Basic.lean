import TwigTemplate.Report.Finding

/-!
# Reports

A report holds findings ordered by line. Findings of one line stay in the order in which they were
made.
-/

namespace TwigTemplate

structure Report where
  findings : List Finding
  deriving DecidableEq, Repr

namespace Report

/-- Order findings by line, those of one line as they come. -/
def ofFindings (found : List Finding) : Report :=
  ⟨found.mergeSort fun a b => a.line ≤ b.line⟩

def errorCount (r : Report) : Nat :=
  r.findings.countP Finding.isError

def warningCount (r : Report) : Nat :=
  r.findings.countP (!·.isError)

def hasErrors (r : Report) : Bool :=
  r.findings.any Finding.isError

def countIn (r : Report) (category : Category) : Nat :=
  r.findings.countP (·.cause.category = category)

def isEmpty (r : Report) : Bool :=
  r.findings.isEmpty

end Report

end TwigTemplate
