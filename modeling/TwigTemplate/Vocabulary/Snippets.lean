import TwigTemplate.Vocabulary.Basic
import TwigTemplate.Text.Lines

/-!
# Tag snippets

Bodies of statements with the stops `${n:text}` that an editor visits in the order of their numbers.
-/

namespace TwigTemplate.Vocabulary

/-- The stop with number `n` and the text that stands there at first. -/
def stop (n : Nat) (text : String) : List Char :=
  ['$', '{'] ++ Nat.toDigits 10 n ++ [':'] ++ text.toList ++ ['}']

/-- A statement around the given code. -/
def statement (code : List Char) : List Char :=
  "\x7b% ".toList ++ code ++ " %\x7d".toList

def indented (line : List Char) : List Char :=
  "    ".toList ++ line

def onLines (lines : List (List Char)) : List Char :=
  Text.joinWith ['\n'] lines

/-- A statement whose code is a word and a quoted stop. -/
def quotedPath (keyword rest : String) : List Char :=
  (keyword ++ " '").toList ++ stop 1 "template" ++ ("'" ++ rest).toList

/-- An opening statement with one stop, a line of content and the closing statement. -/
def blockOf (keyword argument : String) : List Char :=
  onLines [statement ((keyword ++ " ").toList ++ stop 1 argument), indented (stop 2 "content"),
    statement ("end" ++ keyword).toList]

def forHead : List Char :=
  "for ".toList ++ stop 1 "item" ++ " in ".toList ++ stop 2 "items"

/-- The statement tags that are inserted with their surroundings. -/
def snippets : List Snippet :=
  [⟨"if", "Conditional block", blockOf "if" "condition"⟩,
    ⟨"if-else", "Conditional with else",
      onLines [statement ("if ".toList ++ stop 1 "condition"), indented (stop 2 "content"),
        statement "else".toList, indented (stop 3 "else_content"), statement "endif".toList]⟩,
    ⟨"for", "Loop block",
      onLines [statement forHead, indented (stop 3 "content"), statement "endfor".toList]⟩,
    ⟨"for-else", "Loop with empty case",
      onLines [statement forHead, indented (stop 3 "content"), statement "else".toList,
        indented (stop 4 "empty_content"), statement "endfor".toList]⟩,
    ⟨"set", "Set variable",
      statement ("set ".toList ++ stop 1 "variable" ++ " = ".toList ++ stop 2 "value")⟩,
    ⟨"set-block", "Set with content block", blockOf "set" "variable"⟩,
    ⟨"block", "Define template block", blockOf "block" "name"⟩,
    ⟨"extends", "Inherit from template", statement (quotedPath "extends" "")⟩,
    ⟨"include", "Include template", statement (quotedPath "include" "")⟩,
    ⟨"embed", "Embed template with blocks",
      onLines [statement (quotedPath "embed" ""),
        indented (statement ("block ".toList ++ stop 2 "name")),
        indented (indented (stop 3 "content")), indented (statement "endblock".toList),
        statement "endembed".toList]⟩,
    ⟨"macro", "Define reusable content",
      onLines [statement ("macro ".toList ++ stop 1 "name" ++ ['('] ++ stop 2 "params" ++ [')']),
        indented (stop 3 "content"), statement "endmacro".toList]⟩,
    ⟨"import", "Import macros", statement (quotedPath "import" " as " ++ stop 2 "macros")⟩,
    ⟨"from", "Import specific macros",
      statement (quotedPath "from" " import " ++ stop 2 "macros")⟩,
    ⟨"with", "Isolated variable scope", blockOf "with" "vars"⟩,
    ⟨"apply", "Apply filter to content", blockOf "apply" "filter"⟩,
    ⟨"verbatim", "Display raw content",
      onLines [statement "verbatim".toList, indented (stop 1 "content"),
        statement "endverbatim".toList]⟩]

end TwigTemplate.Vocabulary
