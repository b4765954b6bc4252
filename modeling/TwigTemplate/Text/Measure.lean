/-!
# Widths of a text

A text is measured in characters (its length), in bytes of its UTF-8 form and in UTF-16 units.
`cutAtWidth` and `cutAt16` cut at a width in bytes and in units, and after the character that reaches
over it.
-/

namespace TwigTemplate.Text

/-- The number of bytes of the UTF-8 form. -/
def width8 (cs : List Char) : Nat :=
  cs.foldr (fun c n => c.utf8Size + n) 0

/-- The number of UTF-16 units of a character: a character outside the basic plane takes two. -/
def units16 (c : Char) : Nat :=
  if c.toNat < 0x10000 then 1 else 2

def width16 (cs : List Char) : Nat :=
  cs.foldr (fun c n => units16 c + n) 0

/-- The shortest start of the text that is at least `n` bytes wide, and the rest. -/
def cutAtWidth : Nat → List Char → List Char × List Char
  | 0, cs => ([], cs)
  | _ + 1, [] => ([], [])
  | n + 1, c :: r =>
    let (front, back) := cutAtWidth (n + 1 - c.utf8Size) r
    (c :: front, back)

/-- The shortest start of the text that is at least `n` UTF-16 units wide, and the rest. -/
def cutAt16 : Nat → List Char → List Char × List Char
  | 0, cs => ([], cs)
  | _ + 1, [] => ([], [])
  | n + 1, c :: r =>
    let (front, back) := cutAt16 (n + 1 - units16 c) r
    (c :: front, back)

end TwigTemplate.Text
