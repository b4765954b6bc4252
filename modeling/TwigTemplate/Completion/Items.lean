import TwigTemplate.Completion.Context
import TwigTemplate.Vocabulary.Lookup
import TwigTemplate.Vocabulary.Snippets

/-!
# Completions

The context of the cursor chooses the list; the word being typed narrows it to the names that contain
it in any letter case, those that start with it first.
-/

namespace TwigTemplate.Completion

open Vocabulary (Entry Snippet)

inductive Item where
  /-- A statement with its surroundings. -/
  | snippet (s : Snippet)
  | filter (e : Entry)
  | function (e : Entry)
  | test (e : Entry)
  /-- A tag without a snippet, a closing keyword or a plain keyword. -/
  | keyword (e : Entry)
  deriving DecidableEq, Repr

namespace Item

def name : Item → String
  | .snippet s => s.name
  | .filter e | .function e | .test e | .keyword e => e.name

def detail : Item → String
  | .snippet s => s.detail
  | .filter e | .function e | .test e | .keyword e => e.detail

/-- The text with stops that a snippet inserts. -/
def body? : Item → Option (List Char)
  | .snippet s => some s.body
  | _ => none

end Item

/-- What may start a statement. -/
def tagItems : List Item :=
  Vocabulary.snippets.map .snippet ++
    (Vocabulary.tags.filter fun tag => !Vocabulary.snippets.any (·.name = tag.name)).map .keyword ++
    Vocabulary.closers.map .keyword ++ Vocabulary.keywords.map .keyword

def functionItems : List Item :=
  Vocabulary.functions.map .function

/-- What the names of the array functions start with. -/
def arrayStart : List Char := "array_".toList

/-- The items of a context, before they are narrowed. A word that starts like an array function
stands for one in every context that offers anything. -/
def contextItems (context : Context) (word : List Char) : List Item :=
  if context = .outside ∨ context = .setTarget then []
  else if Text.startsWith arrayStart (Text.lowerAscii word) then
    functionItems.filter fun item => Text.startsWith arrayStart item.name.toList
  else match context with
    | .filter => Vocabulary.filters.map .filter
    | .test => Vocabulary.tests.map .test
    | .tag => tagItems
    | .expression => functionItems
    | .setTarget => []
    | .outside => []

def lowerName (item : Item) : List Char :=
  Text.lowerAscii item.name.toList

/-- The items whose names contain the word, those that start with it first. -/
def narrow (word : List Char) (items : List Item) : List Item :=
  let word := Text.lowerAscii word
  let (leading, inner) :=
    (items.filter fun item => Text.occursIn word (lowerName item)).partition fun item =>
      Text.startsWith word (lowerName item)
  leading ++ inner

/-- The items at a cursor. -/
structure Offer where
  context : Context
  /-- Where the word being typed starts, in characters from the start of the line. -/
  start : Nat
  word : List Char
  items : List Item
  deriving DecidableEq, Repr

/-- The offer at the end of a line, the text before the cursor. -/
def offerAt (line : List Char) : Offer :=
  let word := (Text.trailingWord line).2
  let context := contextAt line
  ⟨context, line.length - word.length, word, narrow word (contextItems context word)⟩

end TwigTemplate.Completion
