import TwigTemplate.Fold.Basic
import TwigTemplate.Text.Lines

/-!
# The fold at a line

A query reads its own line and the lines after it, up to the one that closes what the first line
leaves open. Blocks come before elements, elements before the fixed pairs.
-/

namespace TwigTemplate.Fold

/-- The open blocks of a tag while events are read one by one; `none` as soon as all are closed. -/
def depthAfter? (tag : Block) : Int → List Nesting.Event → Option Int
  | depth, [] => some depth
  | depth, e :: es =>
    if depth + eventDelta tag e = 0 then none else depthAfter? tag (depth + eventDelta tag e) es

/-- How many lines on the last of `depth` blocks of a tag is closed. -/
def blockEnd? (tag : Block) : Int → List (List Char) → Option Nat
  | _, [] => none
  | depth, line :: rest =>
    match depthAfter? tag depth (lineEvents line) with
    | none => some 0
    | some depth => (blockEnd? tag depth rest).map (· + 1)

/-- The offset of the line that closes the block which the first line leaves open. -/
def matchBlock? : List (List Char) → Option Nat
  | [] => none
  | first :: rest => do
    let tag ← blockOpener? (lineEvents first)
    return (← blockEnd? tag (blockBalance tag (lineEvents first)) rest) + 1

/-- The line of the tag that closes the last of `depth` elements of a name. -/
def elementEnd? (name : List Char) : Int → List Element → Option Nat
  | _, [] => none
  | depth, e :: es =>
    if e.name = name then
      if depth + e.delta = 0 then some e.line else elementEnd? name (depth + e.delta) es
    else elementEnd? name depth es

/-- The offset of the line that closes the element which the first line of a text leaves open. -/
def matchElement? (cs : List Char) : Option Nat := do
  let (first, rest) := (Element.tags cs).span (·.line = 0)
  let name ← elementOpener? first
  elementEnd? name (elementBalance name first) rest

/-- The offset of the first later line with the closing tag of the pair that the first line opens. -/
def matchPair? : List (List Char) → Option Nat
  | [] => none
  | first :: rest => do
    let closer ← pairCloser? (markupOf first)
    return (← rest.findIdx? fun line => Text.occursIn closer (markupOf line)) + 1

/-- What follows the first `n` newlines of a text, if it has so many. -/
def fromLine? : Nat → List Char → Option (List Char)
  | 0, cs => some cs
  | _ + 1, [] => none
  | n + 1, c :: r => if c = '\n' then fromLine? n r else fromLine? (n + 1) r

/-- The fold span that starts on a line, counted from zero. -/
def resolve? (cs : List Char) (line : Nat) : Option Span := do
  let rest ← fromLine? line cs
  let lines := Text.lines rest
  if lines.isEmpty then none
  let offset ← (matchBlock? lines).orElse fun _ =>
    (matchElement? rest).orElse fun _ => matchPair? lines
  return .between line (line + offset) (← lines[offset]?)

end TwigTemplate.Fold
