import TwigTemplate.Region.Basic
import TwigTemplate.Text.Measure

/-!
# Spacing inside the delimiters

A run of blanks just inside a delimiter of a region is written as one space. Where there is no blank
none is added.
-/

namespace TwigTemplate.Region

/-- The opening delimiter, two bytes wide, with the marker after it, and the rest. -/
def cutOpener (raw : List Char) : List Char × List Char :=
  let (front, rest) := Text.cutAtWidth 2 raw
  match rest with
  | [] => (front, [])
  | c :: r => if isMarker c then (front ++ [c], r) else (front, c :: r)

/-- The text before the closing delimiter, and that delimiter, with the marker before it. -/
def cutCloser (rest : List Char) : List Char × List Char :=
  let (back, front) := cutOpener rest.reverse
  (front.reverse, back.reverse)

/-- A text with the blanks at either end written as one space each; blanks alone as one space. -/
def squeezeEnds (cs : List Char) : List Char :=
  if cs.isEmpty then []
  else if Text.allBlank cs then [' ']
  else
    (if Text.startsBlank cs then [' '] else []) ++ Text.trim cs ++
      (if Text.endsBlank cs then [' '] else [])

/-- The raw text of a region with its inner spacing squeezed. A text too short for two delimiters
stays as it is. -/
def normalizeSpacing (raw : List Char) : List Char :=
  let (opener, rest) := cutOpener raw
  if Text.width8 rest < 2 then raw
  else
    let (body, closer) := cutCloser rest
    opener ++ squeezeEnds body ++ closer

end TwigTemplate.Region
