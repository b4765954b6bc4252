/-!
# Element tags

A start or end tag of the markup around the template code. An element is open after its start tag
unless the tag closes itself or the element takes no closing tag.
-/

namespace TwigTemplate

namespace Element

inductive Kind where
  /-- A start tag whose element needs a closing tag. -/
  | opens
  | closes
  /-- A start tag that ends in `/>`. -/
  | selfClosing
  /-- A start tag of an element that takes no closing tag. -/
  | void
  deriving DecidableEq, Repr

/-- What a tag adds to the number of open elements. -/
def Kind.delta : Kind → Int
  | .opens => 1
  | .closes => -1
  | .selfClosing => 0
  | .void => 0

end Element

structure Element where
  /-- In small letters. -/
  name : List Char
  kind : Element.Kind
  /-- The line of its `<`, counted from zero. -/
  line : Nat
  deriving DecidableEq, Repr

namespace Element

def delta (e : Element) : Int :=
  e.kind.delta

end Element

end TwigTemplate
