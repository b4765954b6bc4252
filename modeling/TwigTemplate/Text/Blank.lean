/-!
# Blank characters

`isBlank` is the property `White_Space` of the Unicode character database: wider than ASCII white
space (it holds of the no-break and the ideographic space) and not met by zero-width characters.
Trimming drops blanks at either end and nothing else.
-/

namespace TwigTemplate.Text

/-- The characters with the property `White_Space`. -/
def isBlank (c : Char) : Bool :=
  (9 ≤ c.toNat && c.toNat ≤ 13) || c.toNat == 0x20 || c.toNat == 0x85 || c.toNat == 0xA0 ||
    c.toNat == 0x1680 || (0x2000 ≤ c.toNat && c.toNat ≤ 0x200A) || c.toNat == 0x2028 ||
    c.toNat == 0x2029 || c.toNat == 0x202F || c.toNat == 0x205F || c.toNat == 0x3000

def trimStart (cs : List Char) : List Char :=
  cs.dropWhile isBlank

def trimEnd (cs : List Char) : List Char :=
  (cs.reverse.dropWhile isBlank).reverse

def trim (cs : List Char) : List Char :=
  trimEnd (trimStart cs)

/-- A text of blanks only, the empty text included. -/
def allBlank (cs : List Char) : Bool :=
  cs.all isBlank

def startsBlank (cs : List Char) : Bool :=
  cs.head?.any isBlank

def endsBlank (cs : List Char) : Bool :=
  cs.getLast?.any isBlank

/-- Cut at the first blank, which is dropped; the whole text and nothing if there is none. -/
def cutAtBlank (cs : List Char) : List Char × List Char :=
  (cs.takeWhile (!isBlank ·), (cs.dropWhile (!isBlank ·)).drop 1)

end TwigTemplate.Text
