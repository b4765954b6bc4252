/-!
# Words

A word character is an ASCII letter, an ASCII digit or `_`. Template names are runs of them.
-/

namespace TwigTemplate.Text

def isWordChar (c : Char) : Bool :=
  c.isAlphanum || c = '_'

/-- The word at the start of the text (possibly empty) and the rest. -/
def leadingWord (cs : List Char) : List Char × List Char :=
  (cs.takeWhile isWordChar, cs.dropWhile isWordChar)

/-- Everything before the word at the end of the text, and that word (possibly empty). -/
def trailingWord (cs : List Char) : List Char × List Char :=
  ((cs.reverse.dropWhile isWordChar).reverse, (cs.reverse.takeWhile isWordChar).reverse)

end TwigTemplate.Text
