import TwigTemplate.Literal.State
import TwigTemplate.Text.Blank
import TwigTemplate.Text.Word

/-!
# Splitting outside literals

A text is cut at a separator wherever no literal hides it. Filters are read this way: each pipe
outside a literal applies the filter named after it.
-/

namespace TwigTemplate.Literal

/-- The parts of a text that is read from the state `s` on; never empty. -/
def splitFrom (sep : Char) (s : State) : List Char → List (List Char)
  | [] => [[]]
  | c :: r =>
    let next := step s c
    if s = .outside ∧ next = .outside ∧ c = sep then [] :: splitFrom sep next r
    else match splitFrom sep next r with
      | [] => [[c]]
      | part :: parts => (c :: part) :: parts

def split (sep : Char) (cs : List Char) : List (List Char) :=
  splitFrom sep .outside cs

/-- A filter applied to an expression. -/
structure FilterCall where
  /-- Empty when no name follows the pipe. -/
  name : List Char
  /-- All that stands between this pipe and the next, trimmed. -/
  segment : List Char
  deriving DecidableEq, Repr

def FilterCall.ofPart (part : List Char) : FilterCall :=
  ⟨(Text.leadingWord (Text.trim part)).1, Text.trim part⟩

/-- The filters applied in an expression, in order. -/
def filterCalls (cs : List Char) : List FilterCall :=
  ((split '|' cs).drop 1).map FilterCall.ofPart

end TwigTemplate.Literal
