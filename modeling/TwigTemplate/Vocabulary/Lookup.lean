import TwigTemplate.Text.Search
import TwigTemplate.Vocabulary.Names

/-!
# Looking words up

A word may stand in several lists: `date` is a filter, a function and a test. `lookup` gives every
entry of that name in the order of the lists.
-/

namespace TwigTemplate.Vocabulary

/-- Markup elements that take no closing tag. -/
def voidElements : List String :=
  ["area", "base", "br", "col", "embed", "hr", "img", "input", "link", "meta", "param", "source",
    "track", "wbr"]

/-- Statement keywords that leave the nesting as it is. -/
def terminalTags : List String :=
  ["extends", "include", "import", "from", "use", "do", "flush", "sandbox", "cache", "deprecated",
    "autoescape"]

/-- Keywords that part an open block into sections of one level. -/
def branchTags : List String :=
  ["else", "elseif"]

/-- Opening and closing tags of the container elements that fold without a depth count. -/
def foldPairs : List (String × String) :=
  [("<ul>", "</ul>"), ("<ol>", "</ol>"), ("<table>", "</table>"), ("<tr>", "</tr>"),
    ("<form>", "</form>"), ("<head>", "</head>"), ("<body>", "</body>"), ("<style>", "</style>"),
    ("<script>", "</script>")]

def isTag (name : List Char) : Bool := has tags name

def isFilter (name : List Char) : Bool := has filters name

def isFunction (name : List Char) : Bool := has functions name

def isTest (name : List Char) : Bool := has tests name

def isBranch (name : List Char) : Bool :=
  branchTags.any (·.toList = name)

/-- Element names are compared without regard to ASCII case. -/
def isVoidElement (name : List Char) : Bool :=
  voidElements.any (·.toList = Text.lowerAscii name)

/-- The list a word was found in. -/
inductive WordKind where
  | tag
  | closer
  | filter
  | function
  | test
  | keyword
  deriving DecidableEq, Repr

namespace WordKind

def all : List WordKind :=
  [.tag, .closer, .filter, .function, .test, .keyword]

def entries : WordKind → List Entry
  | .tag => tags
  | .closer => closers
  | .filter => filters
  | .function => functions
  | .test => tests
  | .keyword => keywords

/-- What a reader is told the word is. -/
def label : WordKind → String
  | .tag => "tag"
  | .closer => "closing tag"
  | .filter => "filter"
  | .function => "function"
  | .test => "test"
  | .keyword => "keyword"

end WordKind

/-- Every entry named `word`, with the list it stands in. -/
def lookup (word : List Char) : List (WordKind × Entry) :=
  WordKind.all.filterMap fun kind => (find? kind.entries word).map (kind, ·)

end TwigTemplate.Vocabulary
