import TwigTemplate.Literal.Mask
import TwigTemplate.Text.Blank
import TwigTemplate.Text.Search
import TwigTemplate.Text.Word

/-!
# Spacing around operators

An operator is glued when a character other than a blank stands right beside it. Symbols are read as
whole runs of operator characters; word operators must not be part of a longer word or follow a
dot. String literals are masked beforehand, so nothing inside them counts.
-/

namespace TwigTemplate.Operator

def symbols : List String :=
  ["==", "!=", "<", ">", ">=", "<=", "+", "-", "/", "*", "%", "//", "**"]

def words : List String :=
  ["not in", "is not", "matches", "and", "in", "is", "or"]

def isSymbolChar (c : Char) : Bool :=
  c = '=' || c = '!' || c = '<' || c = '>' || c = '+' || c = '-' || c = '/' || c = '*' || c = '%'

/-- A blank, or the end of the text. -/
def clear (beside : Option Char) : Bool :=
  beside.all Text.isBlank

/-- A run of operator characters with the text around it, the text before it read backwards. -/
structure Run where
  before : List Char
  symbol : List Char
  after : List Char
  deriving DecidableEq, Repr

/-- The runs of a text that follows `before`. -/
def runs (before : List Char) : List Char → List Run
  | [] => []
  | c :: r =>
    let more := runs (c :: before) r
    if isSymbolChar c && !before.head?.any isSymbolChar then
      ⟨before, (c :: r).takeWhile isSymbolChar, (c :: r).dropWhile isSymbolChar⟩ :: more
    else more

/-- The character an operand may end with. -/
def endsOperand (c : Char) : Bool :=
  Text.isWordChar c || c = ')' || c = ']' || c = '\'' || c = '"'

/-- A `+` or `-` without an operand before it is a sign. -/
def Run.isSign (run : Run) : Bool :=
  (run.symbol = ['+'] || run.symbol = ['-']) &&
    !(run.before.find? (!Text.isBlank ·)).any endsOperand

/-- A `+` or `-` after a blank may be a sign too, whatever stands before the blank. -/
def Run.maySign (run : Run) : Bool :=
  (run.symbol = ['+'] || run.symbol = ['-']) && run.before.head?.any Text.isBlank

def Run.isGlued (run : Run) : Bool :=
  !run.isSign && !run.maySign && !(clear run.before.head? && clear run.after.head?)

/-- The glued symbols of a masked text, each once, in the order of their first glued place. -/
def gluedSymbols (masked : List Char) : List String :=
  let found := (runs [] masked).filterMap fun run =>
    if run.isGlued then symbols.find? (·.toList = run.symbol) else none
  found.eraseDups

/-- An occurrence of a word operator, between the characters beside it. -/
def isGluedWord (before after : Option Char) : Bool :=
  !(before.any fun c => Text.isWordChar c || c = '.') && !after.any Text.isWordChar &&
    !(clear before && clear after)

/-- Whether `word` stands glued somewhere in a text that follows `before`. The first number counts
the characters still covered by the last occurrence. -/
def hasGlued (word : List Char) : Nat → Option Char → List Char → Bool
  | _, _, [] => false
  | skip + 1, _, c :: r => hasGlued word skip (some c) r
  | 0, before, c :: r =>
    match Text.after? word (c :: r) with
    | some rest => isGluedWord before rest.head? || hasGlued word (word.length - 1) (some c) r
    | none => hasGlued word 0 (some c) r

def gluedWords (masked : List Char) : List String :=
  words.filter fun word => hasGlued word.toList 0 none masked

/-- The operators of an expression that lack a space, each once. -/
def glued (content : List Char) : List String :=
  let masked := Literal.mask content
  gluedSymbols masked ++ gluedWords masked

end TwigTemplate.Operator
