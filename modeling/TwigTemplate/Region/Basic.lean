import TwigTemplate.Point
import TwigTemplate.Text.Blank
import TwigTemplate.Text.Lines

/-!
# Template regions

A document is cut into regions: plain text, and template code in one of three forms. A template
region whose closing delimiter is missing is kept apart, as it stops at the end of its line.

`content` is what a region says: its raw text less the delimiters, the white-space markers `-` and
`~` beside them, and the blanks around the rest.
-/

namespace TwigTemplate

/-- The forms of template code: `{{ … }}`, `{% … %}` and `{# … #}`. -/
inductive Form where
  | output
  | statement
  | comment
  deriving DecidableEq, Repr

namespace Form

/-- The character beside the brace in the delimiters. -/
def mark : Form → Char
  | .output => '{'
  | .statement => '%'
  | .comment => '#'

/-- The form that the two characters `{` and `c` open. -/
def ofMark? (c : Char) : Option Form :=
  if c = '{' then some .output
  else if c = '%' then some .statement
  else if c = '#' then some .comment
  else none

/-- The form whose opener starts the text. -/
def opening? : List Char → Option Form
  | '{' :: c :: _ => ofMark? c
  | _ => none

def opener (form : Form) : List Char :=
  ['{', form.mark]

def closer : Form → List Char
  | .output => ['}', '}']
  | .statement => ['%', '}']
  | .comment => ['#', '}']

end Form

namespace Region

inductive Kind where
  /-- Literal text between template regions. -/
  | text
  | template (form : Form)
  /-- An opener whose closer does not follow in time. -/
  | unterminated (form : Form)
  deriving DecidableEq, Repr

/-- Terminated template code. -/
def Kind.isTemplate : Kind → Bool
  | .template _ => true
  | _ => false

end Region

/-- A stretch of a document from `start` up to, not including, `stop`. -/
structure Region where
  kind : Region.Kind
  start : Point
  stop : Point
  raw : List Char
  deriving DecidableEq, Repr

namespace Region

def line (r : Region) : Nat := r.start.line

def column (r : Region) : Nat := r.start.column

def spansLines (r : Region) : Bool :=
  r.start.line != r.stop.line

def isMarker (c : Char) : Bool :=
  c = '-' || c = '~'

/-- The text without a white-space marker at its start. -/
def dropMarker (cs : List Char) : List Char :=
  if cs.head?.any isMarker then cs.drop 1 else cs

/-- What stands between the delimiters of a region of this kind. -/
def body : Kind → List Char → List Char
  | .text, raw => raw
  | .template _, raw =>
    (dropMarker ((dropMarker (raw.drop 2)).reverse.drop 2)).reverse
  | .unterminated _, raw => dropMarker (raw.drop 2)

/-- What a region says. Plain text says itself, blanks included. -/
def content (r : Region) : List Char :=
  if r.kind = .text then r.raw else Text.trim (body r.kind r.raw)

end Region

end TwigTemplate
