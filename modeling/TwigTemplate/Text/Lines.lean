/-!
# Lines

Three views of a text by its line ends. `splitAt` cuts at every occurrence of a character and never
loses one: the parts joined by the character are the text. `lines` reads a text file: a line ends at
a newline, a carriage return just before that newline belongs to the line end, and a text that ends
with a newline has no empty last line. `unifyNewlines` writes every line end (`\r\n`, `\n` or a lone
`\r`) as a newline.
-/

namespace TwigTemplate.Text

/-- The parts of a text between the occurrences of `sep`; there is always at least one. -/
def splitAt (sep : Char) : List Char → List (List Char)
  | [] => [[]]
  | c :: r =>
    if c = sep then [] :: splitAt sep r
    else match splitAt sep r with
      | [] => [[c]]
      | part :: parts => (c :: part) :: parts

/-- The texts in order with `sep` between neighbours. -/
def joinWith (sep : List Char) (parts : List (List Char)) : List Char :=
  sep.intercalate parts

/-- A line without the carriage return at its end. -/
def dropReturn (cs : List Char) : List Char :=
  if cs.getLast? = some '\r' then cs.dropLast else cs

/-- The lines of a file from its newline-separated parts: all parts but the last ended at a
newline. -/
def linesOfParts : List (List Char) → List (List Char)
  | [] => []
  | [last] => if last.isEmpty then [] else [last]
  | part :: next :: parts => dropReturn part :: linesOfParts (next :: parts)

def lines (cs : List Char) : List (List Char) :=
  linesOfParts (splitAt '\n' cs)

def unifyNewlines : List Char → List Char
  | [] => []
  | '\r' :: '\n' :: r => '\n' :: unifyNewlines r
  | c :: r => (if c = '\r' then '\n' else c) :: unifyNewlines r

def newlineCount (cs : List Char) : Nat :=
  cs.count '\n'

end TwigTemplate.Text
