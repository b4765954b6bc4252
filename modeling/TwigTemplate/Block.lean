/-!
# Block tags

The statements that open a block. Each is closed by `end` followed by its keyword.
-/

namespace TwigTemplate

inductive Block where
  | conditional
  | loop
  | block
  | macroDef
  | embed
  | assignment
  | apply
  | verbatim
  | scope
  deriving DecidableEq, Repr

namespace Block

def all : List Block :=
  [.conditional, .loop, .block, .macroDef, .embed, .assignment, .apply, .verbatim, .scope]

def keyword : Block → String
  | .conditional => "if"
  | .loop => "for"
  | .block => "block"
  | .macroDef => "macro"
  | .embed => "embed"
  | .assignment => "set"
  | .apply => "apply"
  | .verbatim => "verbatim"
  | .scope => "with"

/-- The keyword that closes the block. -/
def closer (b : Block) : String :=
  "end" ++ b.keyword

def ofKeyword? (word : List Char) : Option Block :=
  all.find? (·.keyword.toList = word)

theorem mem_all (b : Block) : b ∈ all := by
  cases b <;> decide

theorem keyword_injective {a b : Block} (h : a.keyword = b.keyword) : a = b := by
  cases a <;> cases b <;> first | rfl | simp [keyword] at h

theorem ofKeyword?_keyword (b : Block) : ofKeyword? b.keyword.toList = some b := by
  cases b <;> decide

end Block

end TwigTemplate
