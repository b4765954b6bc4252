/-!
# Entries of the vocabulary
-/

namespace TwigTemplate.Vocabulary

/-- A name and a short description of what it stands for. -/
structure Entry where
  name : String
  detail : String
  deriving DecidableEq, Repr

/-- Text to insert for a statement, with numbered stops for the editor's cursor. -/
structure Snippet where
  name : String
  detail : String
  body : List Char
  deriving DecidableEq, Repr

/-- The entry of a list with the given name. -/
def find? (entries : List Entry) (name : List Char) : Option Entry :=
  entries.find? (·.name.toList = name)

def has (entries : List Entry) (name : List Char) : Bool :=
  (find? entries name).isSome

end TwigTemplate.Vocabulary
