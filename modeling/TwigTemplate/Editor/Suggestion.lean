import TwigTemplate.Completion.Items
import TwigTemplate.Editor.Edit

/-!
# Suggestions

The completions at a position, with the edit that accepts each. A name replaces the word being
typed. A snippet brings its own statement, so it replaces the open one from its delimiter on.
-/

namespace TwigTemplate.Editor

structure Suggestion where
  item : Completion.Item
  edit : Edit
  /-- What the typed text is compared with, where that is not the name. -/
  filterText : Option (List Char)
  deriving DecidableEq, Repr

/-- The start of a statement. -/
def statementOpener : List Char := "\x7b%".toList

/-- The suggestion of an item on a line that ends at the cursor; `start` is where the word starts. -/
def suggestion (number : Nat) (line : List Char) (start : Nat) (item : Completion.Item) :
    Suggestion :=
  let front := line.take start
  let upTo (text : List Char) : Range :=
    .onLine number (Text.width16 text) (Text.width16 line)
  match item.body?, Text.cutAtLast? statementOpener front with
  | some body, some (before, statement) =>
    ⟨item, ⟨upTo before, body⟩, some (statement ++ item.name.toList)⟩
  | _, _ => ⟨item, ⟨upTo front, item.name.toList⟩, none⟩

def suggestions (cs : List Char) (p : Position) : List Suggestion :=
  match lineAt? cs p with
  | none => []
  | some (line, _) =>
    let offer := Completion.offerAt line
    offer.items.map (suggestion p.line line offer.start)

end TwigTemplate.Editor
