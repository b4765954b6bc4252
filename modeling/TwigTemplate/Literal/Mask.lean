import TwigTemplate.Literal.State

/-!
# Masking what literals hold

Each character strictly inside a literal becomes as many `x` as its UTF-8 form has bytes; the quotes
and everything outside stay. So the mask has the byte offsets of the text.
-/

namespace TwigTemplate.Literal

/-- The mask of a text that is read from the state `s` on. -/
def maskFrom (s : State) : List Char → List Char
  | [] => []
  | c :: r =>
    let next := step s c
    if s = .outside ∨ next = .outside then c :: maskFrom next r
    else List.replicate c.utf8Size 'x' ++ maskFrom next r

def mask (cs : List Char) : List Char :=
  maskFrom .outside cs

end TwigTemplate.Literal
