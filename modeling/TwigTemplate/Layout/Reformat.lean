import TwigTemplate.Layout.Printer
import TwigTemplate.Layout.Protected
import TwigTemplate.Layout.Reindent

/-!
# Reformatting a template

The template regions are protected, the markup is printed, the regions are put back, and every line
is indented by block depth. A failure on the way is the result.
-/

namespace TwigTemplate.Layout

structure ReflowOptions where
  printer : PrinterOptions
  /-- Keep the printer's indentation under that of the blocks. -/
  markupIndent : Bool
  deriving DecidableEq, Repr

def ReflowOptions.standard : ReflowOptions := ⟨.standard, false⟩

/-- The document with the printer's layout and its regions back in place. -/
def printAround (printer : Printer) (o : PrinterOptions) (cs : List Char) :
    Except Failure (List Char × List Char) := do
  let p := protect cs
  let printed ← printer o p.text
  return (printed, ← p.restore printed)

def reformat (printer : Printer) (o : ReflowOptions) (cs : List Char) :
    Except Failure (List Char) := do
  let (_, restored) ← printAround printer o.printer cs
  return reindent o.printer.indentUnit o.markupIndent restored

end TwigTemplate.Layout
