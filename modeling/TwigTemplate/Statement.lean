import TwigTemplate.Block
import TwigTemplate.Region.Basic
import TwigTemplate.Text.Word
import TwigTemplate.Vocabulary.Lookup

/-!
# Statements

A statement is a keyword and its arguments. Its role says what it does to the nesting of blocks. An
assignment opens a block only in the form without `=`.
-/

namespace TwigTemplate

/-- What a statement does to the nesting of blocks. -/
inductive Role where
  | opens (b : Block)
  | closes (b : Block)
  /-- Starts the next section of an open block. -/
  | branch
  /-- A known statement without effect on the nesting. -/
  | inline
  /-- The keyword is not in the vocabulary. -/
  | unknown
  deriving DecidableEq, Repr

structure Statement where
  keyword : List Char
  args : List Char
  deriving DecidableEq, Repr

namespace Statement

def endMark : List Char := ['e', 'n', 'd']

/-- Cut the content of a statement into keyword and arguments. A keyword is a word; content that
starts with another character has everything up to the first blank for its keyword. -/
def ofContent (cs : List Char) : Statement :=
  let cs := Text.trim cs
  let (word, rest) := Text.leadingWord cs
  if word.isEmpty then
    let (keyword, args) := Text.cutAtBlank cs
    ⟨keyword, Text.trim args⟩
  else ⟨word, Text.trim rest⟩

def isClosing (s : Statement) : Bool :=
  Text.startsWith endMark s.keyword

/-- The keyword without the `end` of a closing statement. -/
def base (s : Statement) : List Char :=
  (Text.after? endMark s.keyword).getD s.keyword

/-- The name by which an unknown statement is reported. -/
def reportedName (s : Statement) : List Char :=
  if s.base.isEmpty then s.keyword else s.base

def closingRole (base : List Char) : Role :=
  match Block.ofKeyword? base with
  | some b => .closes b
  | none => if Vocabulary.isTag base then .inline else .unknown

def openingRole (keyword args : List Char) : Role :=
  match Block.ofKeyword? keyword with
  | some b =>
    if b = .assignment ∧ (args = [] ∨ '=' ∈ args) then .inline else .opens b
  | none =>
    if Vocabulary.isBranch keyword then .branch
    else if Vocabulary.isTag keyword then .inline
    else .unknown

def role (s : Statement) : Role :=
  match Text.after? endMark s.keyword with
  | some base => closingRole base
  | none => openingRole s.keyword s.args

end Statement

end TwigTemplate
