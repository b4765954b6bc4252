/-!
# Reading string literals character by character

Inside a region a quote opens a string literal, which the next equal quote closes. A backslash
inside takes the next character with it, whatever it is. A literal that is never closed reaches to
the end of the text.
-/

namespace TwigTemplate.Literal

/-- What has been read so far. -/
inductive State where
  | outside
  | inside (quote : Char)
  /-- Inside, just after a backslash. -/
  | escaped (quote : Char)
  deriving DecidableEq, Repr

def step : State → Char → State
  | .outside, c => if c = '"' ∨ c = '\'' then .inside c else .outside
  | .inside quote, c =>
    if c = '\\' then .escaped quote else if c = quote then .outside else .inside quote
  | .escaped quote, _ => .inside quote

end TwigTemplate.Literal
