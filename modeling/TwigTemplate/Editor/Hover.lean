import TwigTemplate.Editor.Position
import TwigTemplate.Text.Word
import TwigTemplate.Vocabulary.Lookup

/-!
# What a word means

The word around a position, with everything that the vocabulary knows about it.
-/

namespace TwigTemplate.Editor

structure Hover where
  range : Range
  text : String
  deriving DecidableEq, Repr

/-- What is shown about one entry. -/
def entryText (kind : Vocabulary.WordKind) (e : Vocabulary.Entry) : String :=
  "**" ++ e.name ++ "** (" ++ kind.label ++ ")\n\n" ++ e.detail

def hover? (cs : List Char) (p : Position) : Option Hover := do
  let (before, after) ← lineAt? cs p
  let (front, left) := Text.trailingWord before
  let word := left ++ (Text.leadingWord after).1
  let entries := Vocabulary.lookup word
  if word.isEmpty || entries.isEmpty then none
  else
    let start := Text.width16 front
    return ⟨.onLine p.line start (start + Text.width16 word),
      "\n\n---\n\n".intercalate (entries.map fun (kind, e) => entryText kind e)⟩

end TwigTemplate.Editor
