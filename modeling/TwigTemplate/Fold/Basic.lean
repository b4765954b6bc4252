import TwigTemplate.Element.Scan
import TwigTemplate.Nesting
import TwigTemplate.Region.Scan

/-!
# Openers of a line

What a line opens and leaves open decides whether a fold starts on it: a block, a markup element, or
one of the fixed pairs of container elements.

A span has its lines and columns counted from zero; it runs from the start of its first line to the
end of its last.
-/

namespace TwigTemplate.Fold

structure Span where
  fromLine : Nat
  fromColumn : Nat
  toLine : Nat
  toColumn : Nat
  deriving DecidableEq, Repr

/-- The span between two lines, given the text of the last one. -/
def Span.between (first last : Nat) (closing : List Char) : Span :=
  ⟨first, 0, last, closing.length⟩

/-- The nesting events of one line. -/
def lineEvents (line : List Char) : List Nesting.Event :=
  Nesting.events (Region.ofLine line 1)

/-- A line in small letters with its template code blanked out. -/
def markupOf (line : List Char) : List Char :=
  (Region.ofLine line 1).flatMap fun r =>
    if r.kind = .text then Text.lowerAscii r.raw else List.replicate r.raw.length ' '

/-- What an event adds to the number of open blocks of a tag. -/
def eventDelta (tag : Block) : Nesting.Event → Int
  | .opens b => if b = tag then 1 else 0
  | .closes b => if b = tag then -1 else 0
  | .branch => 0

/-- How many blocks of a tag the events leave open. -/
def blockBalance (tag : Block) (events : List Nesting.Event) : Int :=
  events.foldr (fun e n => eventDelta tag e + n) 0

/-- The tag of the first event that opens a block left open by all the events. -/
def blockOpener? (events : List Nesting.Event) : Option Block :=
  events.findSome? fun
    | .opens b => if 0 < blockBalance b events then some b else none
    | _ => none

def elementDelta (name : List Char) (e : Element) : Int :=
  if e.name = name then e.delta else 0

def elementBalance (name : List Char) (elements : List Element) : Int :=
  elements.foldr (fun e n => elementDelta name e + n) 0

/-- The name of the first element that is opened and left open. A self-closing tag beside it keeps
the fold from starting. -/
def elementOpener? (elements : List Element) : Option (List Char) :=
  if elements.any (·.kind = .selfClosing) then none
  else elements.findSome? fun e =>
    if e.kind = .opens ∧ 0 < elementBalance e.name elements then some e.name else none

/-- The closing tag of the first fixed pair that is opened and not closed. -/
def pairCloser? (markup : List Char) : Option (List Char) :=
  Vocabulary.foldPairs.findSome? fun (opening, closing) =>
    if Text.occursIn opening.toList markup ∧ !Text.occursIn closing.toList markup then
      some closing.toList
    else none

end TwigTemplate.Fold
