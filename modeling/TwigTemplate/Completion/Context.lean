import TwigTemplate.Literal.Mask
import TwigTemplate.Region.Scan
import TwigTemplate.Text.Search
import TwigTemplate.Text.Word

/-!
# What may be typed at a cursor

The context of a cursor is read off the line before it: the region still open there, and the last
words of its code. String literals are masked, so nothing inside them is taken for code.
-/

namespace TwigTemplate.Completion

inductive Context where
  /-- After a pipe. -/
  | filter
  /-- After `is` or `is not`. -/
  | test
  /-- Where the keyword of a statement stands. -/
  | tag
  /-- Where a new variable is named. -/
  | setTarget
  | expression
  /-- Outside template code. -/
  | outside
  deriving DecidableEq, Repr

def endsWithPipe (cs : List Char) : Bool :=
  cs.getLast? = some '|'

/-- Code that ends in the word `is`, or in `is not`. -/
def endsInTest (code : List Char) : Bool :=
  let (head, last) := Text.trailingWord code
  last = "is".toList ||
    (last = "not".toList && (Text.trailingWord (Text.trimEnd head)).2 = "is".toList)

/-- The context at the end of the code of an open region. -/
def contextOfCode (form : Form) (code : List Char) : Context :=
  let (before, _) := Text.trailingWord (Literal.mask code)
  let trimmed := Text.trimEnd before
  let spaced := Text.endsBlank before
  if endsWithPipe trimmed then .filter
  else if spaced && endsInTest trimmed then .test
  else if form = .statement && trimmed.isEmpty then .tag
  else if form = .statement && spaced && Text.trimStart trimmed = "set".toList then .setTarget
  else .expression

/-- The region that is still open at the end of a line, unless it is a comment. -/
def openCode? (line : List Char) : Option (Form × List Char) :=
  match (Region.pieces .line line).getLast? with
  | some ⟨.unterminated .output, raw⟩ => some (.output, Region.dropMarker (raw.drop 2))
  | some ⟨.unterminated .statement, raw⟩ => some (.statement, Region.dropMarker (raw.drop 2))
  | _ => none

/-- The context at the end of a line. -/
def contextAt (line : List Char) : Context :=
  match openCode? line with
  | some (form, code) => contextOfCode form code
  | none => .outside

end TwigTemplate.Completion
