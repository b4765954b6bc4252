/-!
# Lines of a comparison

Texts are compared line by line, and a line holds its own end: a newline, a carriage return or both.
So a changed line end is a changed line.
-/

namespace TwigTemplate.Diff

abbrev Line := List Char

/-- The lines of a text, each with its end; joined they are the text. -/
def linesOf : List Char → List Line
  | [] => []
  | '\r' :: '\n' :: r => ['\r', '\n'] :: linesOf r
  | c :: r =>
    if c = '\n' ∨ c = '\r' then [c] :: linesOf r
    else match linesOf r with
      | [] => [[c]]
      | line :: lines => (c :: line) :: lines

/-- A line that the text ends in without a line end. -/
def lacksEnd (line : Line) : Bool :=
  !line.getLast?.any fun c => c = '\n' || c = '\r'

/-- How many lines two lists have in common at their starts. -/
def commonLength : List Line → List Line → Nat
  | a :: as, b :: bs => if a = b then commonLength as bs + 1 else 0
  | _, _ => 0

end TwigTemplate.Diff
