import TwigTemplate.Block

/-!
# Findings

A finding is a cause at a line and a column. The cause decides everything a reader is told: the
category, the wording, and whether it is an error or advice.
-/

namespace TwigTemplate

inductive Category where
  /-- A region that does not end or is malformed. -/
  | syntactic
  /-- Block tags that do not nest. -/
  | structural
  /-- Names outside the vocabulary. -/
  | semantic
  /-- Advice on layout. -/
  | style
  deriving DecidableEq, Repr

namespace Category

def label : Category → String
  | .syntactic => "syntax"
  | .structural => "structural"
  | .semantic => "semantic"
  | .style => "style"

end Category

/-- What is wrong. -/
inductive Cause where
  | unclosedOutput
  | unclosedStatement
  | unclosedComment
  | emptyOutput
  | emptyStatement
  | unknownTag (name : String)
  | unknownFilter (name : String)
  | missingFilterName
  | unexpectedCloser (tag : Block)
  | mismatchedCloser (expected found : Block)
  | unclosedBlock (tag : Block)
  | invalidForLoop
  | invalidSet
  | includeNotString
  | operatorSpacing (operator : String)
  deriving DecidableEq, Repr

namespace Cause

def category : Cause → Category
  | .unclosedOutput | .unclosedStatement | .unclosedComment | .emptyOutput | .emptyStatement
  | .missingFilterName | .invalidForLoop | .invalidSet | .includeNotString => .syntactic
  | .unexpectedCloser _ | .mismatchedCloser _ _ | .unclosedBlock _ => .structural
  | .unknownTag _ | .unknownFilter _ => .semantic
  | .operatorSpacing _ => .style

def quoted (name : String) : String :=
  "`" ++ name ++ "`"

def message : Cause → String
  | .unclosedOutput => "unclosed variable output"
  | .unclosedStatement => "unclosed block statement"
  | .unclosedComment => "unclosed comment"
  | .emptyOutput => "empty variable expression"
  | .emptyStatement => "empty block statement"
  | .unknownTag name => "unknown tag " ++ quoted name
  | .unknownFilter name => "unknown filter " ++ quoted name
  | .missingFilterName => "missing filter name after " ++ quoted "|"
  | .unexpectedCloser tag => "unexpected " ++ quoted tag.closer ++ " with no opening tag"
  | .mismatchedCloser expected found =>
    "mismatched tag: expected " ++ quoted expected.closer ++ ", found " ++ quoted found.closer
  | .unclosedBlock tag => "unclosed " ++ quoted tag.keyword ++ " block"
  | .invalidForLoop => "invalid for loop: missing " ++ quoted "in"
  | .invalidSet => "invalid set syntax"
  | .includeNotString => "include path must be a string literal"
  | .operatorSpacing operator =>
    "operator " ++ quoted operator ++ " should be surrounded by spaces"

/-- Advice on style is no error; all else is. -/
def isError (c : Cause) : Bool :=
  c.category ≠ .style

end Cause

/-- A cause and the start of the region it belongs to, counted from one. -/
structure Finding where
  line : Nat
  column : Nat
  cause : Cause
  deriving DecidableEq, Repr

namespace Finding

def isError (f : Finding) : Bool := f.cause.isError

end Finding

end TwigTemplate
