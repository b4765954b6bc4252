import TwigTemplate.Element.Basic
import TwigTemplate.Literal.State
import TwigTemplate.Region.Basic
import TwigTemplate.Text.Search

/-!
# Where tags, comments and code end

All functions return a number of characters, counted from where they start. Markup that never comes
to its end reaches to the end of the text; template code that is never closed reaches to the end of
its line.
-/

namespace TwigTemplate.Element

/-- How template code inside markup is read on: as literals are, but a newline that is not escaped
ends a literal. -/
def codeStep (s : Literal.State) (c : Char) : Literal.State :=
  if c = '\n' then
    match s with
    | .escaped quote => .inside quote
    | _ => .outside
  else Literal.step s c

/-- The length of template code up to and including its closer, read from a state on. Quotes count
only in an expression. -/
def codeLength? (closer : List Char) (quoted : Bool) (s : Literal.State) : List Char → Option Nat
  | [] => none
  | c :: r =>
    if s = .outside ∧ Text.startsWith closer (c :: r) then some closer.length
    else
      let next := if quoted then codeStep s c else .outside
      (codeLength? closer quoted next r).map (· + 1)

/-- The length of template code of a form, counted after its opener. -/
def codeLength (form : Form) (cs : List Char) : Nat :=
  (codeLength? form.closer (form ≠ .comment) .outside cs).getD (cs.takeWhile (· ≠ '\n')).length

/-- The length of a markup comment after its opener. -/
def commentLength : List Char → Nat
  | [] => 0
  | c :: r => if Text.startsWith ['-', '-', '>'] (c :: r) then 3 else commentLength r + 1

/-- The length of the rest of a quoted attribute value, the quote included, if it ends. -/
def valueLength? (quote : Char) : List Char → Option Nat
  | [] => none
  | c :: r => if c = quote then some 1 else (valueLength? quote r).map (· + 1)

/-- What follows at the start of the text inside a start tag: the number of characters that belong
together. -/
def attributeLength (cs : List Char) : Nat :=
  match cs with
  | [] => 0
  | c :: r =>
    if c = '"' ∨ c = '\'' then ((valueLength? c r).map (· + 1)).getD 1
    else match Form.opening? (c :: r) with
      | some form => 2 + codeLength form (r.drop 1)
      | none => 1

/-- How a start tag ends, and its length after the name. The first argument counts the characters
still to be passed over. -/
def startTagEnd? : Nat → List Char → Option (Kind × Nat)
  | _, [] => none
  | skip + 1, _ :: r => (startTagEnd? skip r).map fun (kind, n) => (kind, n + 1)
  | 0, c :: r =>
    if c = '>' then some (.opens, 1)
    else if Text.startsWith ['/', '>'] (c :: r) then some (.selfClosing, 2)
    else (startTagEnd? (attributeLength (c :: r) - 1) r).map fun (kind, n) => (kind, n + 1)

/-- The length of the content of a raw text element: up to its closing tag, in any letter case, or
all of the text. -/
def rawTextLength (name : List Char) : List Char → Nat
  | [] => 0
  | c :: r =>
    if Text.startsWith ('<' :: '/' :: name) (Text.lowerAscii (c :: r)) then 0
    else rawTextLength name r + 1

end TwigTemplate.Element
