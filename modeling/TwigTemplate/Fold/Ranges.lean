import TwigTemplate.Fold.Basic
import TwigTemplate.Fold.Tracker

/-!
# All folds of a document

The fold spans of all lines, from one pass over the lines for each of blocks, elements and fixed
pairs.
-/

namespace TwigTemplate.Fold

def blockChange? : Nesting.Event → Option (Block × Int)
  | .opens b => some (b, 1)
  | .closes b => some (b, -1)
  | .branch => none

/-- The lines on which the blocks left open by a line are closed, from the events of each line. -/
def blockEnds (lines : List (List Nesting.Event)) : Tracker Block :=
  Tracker.readLines 0 .empty
    (lines.map fun events => (blockOpener? events, events.filterMap blockChange?))

/-- The lines on which the elements left open by a line are closed, from the tags of each line. -/
def elementEnds (lines : List (List Element)) : Tracker (List Char) :=
  Tracker.readLines 0 .empty
    (lines.map fun elements => (elementOpener? elements, elements.map fun e => (e.name, e.delta)))

/-- Lines that wait for a closing tag, and lines that have ended with the line that ended them. -/
structure PairState where
  waiting : List (List Char × Nat)
  ends : List (Nat × Nat)

/-- Read a line with its template code blanked out. Every line that waits for a closing tag which
stands on it ends. -/
def PairState.readLine (line : Nat) (markup : List Char) (s : PairState) : PairState :=
  let (ended, waiting) := s.waiting.partition fun (closer, _) => Text.occursIn closer markup
  ⟨(pairCloser? markup).toList.map (·, line) ++ waiting,
    ended.map (fun (_, opening) => (opening, line)) ++ s.ends⟩

def PairState.readLines (line : Nat) (s : PairState) : List (List Char) → PairState
  | [] => s
  | markup :: rest => readLines (line + 1) (s.readLine line markup) rest

def PairState.endOf? (s : PairState) (line : Nat) : Option Nat :=
  (s.ends.find? (·.1 = line)).map (·.2)

/-- The fold spans of a document, in the order of their first lines. -/
def ranges (cs : List Char) : List Span :=
  let lines := Text.lines cs
  let blocks := blockEnds (lines.map lineEvents)
  let elements := elementEnds (Element.tagsByLine cs lines.length)
  let pairs := PairState.readLines 0 ⟨[], []⟩ (lines.map markupOf)
  (List.range lines.length).filterMap fun line => do
    let last ← (blocks.endOf? line).orElse fun _ =>
      (elements.endOf? line).orElse fun _ => pairs.endOf? line
    return .between line last (← lines[last]?)

end TwigTemplate.Fold
