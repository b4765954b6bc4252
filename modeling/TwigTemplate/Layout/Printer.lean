import TwigTemplate.Element.Scan
import TwigTemplate.Failure
import TwigTemplate.Layout.Depth
import TwigTemplate.Text.Blank

/-!
# Markup printers

A printer lays out markup that holds no template code. Any function may be one; it may fail.

The built-in printer keeps the lines: it trims them, caps runs of blank lines, and indents each line
by the number of elements open where it starts.
-/

namespace TwigTemplate.Layout

/-- The layout a printer is asked for. -/
structure PrinterOptions where
  /-- Any number of spaces. Limits of memory are not modelled: however wide it is, the indentation
  of a line can be written. -/
  indentWidth : Nat
  useTabs : Bool
  /-- The longest run of blank lines kept. -/
  maxBlankLines : Nat
  reorderAttributes : Bool
  collapseBraces : Bool
  endWithNewline : Bool
  deriving DecidableEq, Repr

namespace PrinterOptions

def standard : PrinterOptions :=
  ⟨4, false, 2, false, true, true⟩

/-- What one level of indentation adds: a tab, or that many spaces. -/
def indentUnit (o : PrinterOptions) : List Char :=
  if o.useTabs then ['\t'] else List.replicate o.indentWidth ' '

end PrinterOptions

/-- A printer gets its options and the markup. -/
abbrev Printer := PrinterOptions → List Char → Except Failure (List Char)

/-- Where the built-in printer stands between two lines. -/
structure PrintState where
  depth : Nat
  /-- Blank lines since the last line with text. -/
  blanks : Nat
  /-- No line has been written yet. -/
  atStart : Bool

/-- Write lines, each with the element tags that start on it. -/
def printLines (o : PrinterOptions) : PrintState → List (List Char × List Element) →
    List (List Char)
  | _, [] => []
  | s, (line, elements) :: rest =>
    if (Text.trim line).isEmpty then
      let more := printLines o ⟨s.depth, s.blanks + 1, s.atStart⟩ rest
      if !s.atStart && s.blanks + 1 ≤ o.maxBlankLines then [] :: more else more
    else
      let (depth, next) := lineDepth s.depth (elements.map Element.delta)
      indent o.indentUnit depth (Text.trim line) :: printLines o ⟨next, 0, false⟩ rest

/-- The lines without the empty ones at the end. -/
def dropEmptyEnd (lines : List (List Char)) : List (List Char) :=
  (lines.reverse.dropWhile List.isEmpty).reverse

/-- What the built-in printer makes of a text. -/
def printMarkup (o : PrinterOptions) (cs : List Char) : List Char :=
  let lines := Text.lines cs
  let written := printLines o ⟨0, 0, true⟩ (lines.zip (Element.tagsByLine cs lines.length))
  let printed := Text.joinWith ['\n'] (dropEmptyEnd written)
  if o.endWithNewline && !printed.isEmpty then printed ++ ['\n'] else printed

namespace Printer

def builtin : Printer :=
  fun o cs => .ok (printMarkup o cs)

end Printer

end TwigTemplate.Layout
