import TwigTemplate.Literal.Split
import TwigTemplate.Region.Scan
import TwigTemplate.Report.Basic
import TwigTemplate.Report.Operator
import TwigTemplate.Statement

/-!
# Analysing a template

A template is read line by line. Open blocks are kept on a stack of frames, the innermost first; a
closing statement takes the innermost frame off, whether it matches or not. What is left on the stack
at the end was never closed.

Analysis answers every text.
-/

namespace TwigTemplate

/-- Switches of the optional checks. -/
structure LintOptions where
  /-- Report operators without spaces around them. -/
  operatorSpacing : Bool
  /-- Report outputs that say nothing. -/
  emptyExpression : Bool
  deriving DecidableEq, Repr

def LintOptions.standard : LintOptions := ⟨true, true⟩

namespace Analysis

/-- An open block and where its statement starts. -/
structure Frame where
  block : Block
  line : Nat
  column : Nat
  deriving DecidableEq, Repr

def Frame.ofRegion (b : Block) (r : Region) : Frame :=
  ⟨b, r.line, r.column⟩

def operatorCauses (options : LintOptions) (content : List Char) : List Cause :=
  if options.operatorSpacing then (Operator.glued content).map .operatorSpacing else []

def filterCause? (call : Literal.FilterCall) : Option Cause :=
  if call.name.isEmpty then some .missingFilterName
  else if Vocabulary.isFilter call.name then none
  else some (.unknownFilter (String.ofList call.name))

def outputCauses (options : LintOptions) (content : List Char) : List Cause :=
  if content.isEmpty then
    if options.emptyExpression then [.emptyOutput] else []
  else (Literal.filterCalls content).filterMap filterCause? ++ operatorCauses options content

/-- The open blocks after a statement of the given role, and what its role makes wrong. -/
def nest (r : Region) (role : Role) (name : List Char) :
    List Frame → List Frame × List Cause :=
  fun stack =>
    match role with
    | .unknown => (stack, [.unknownTag (String.ofList name)])
    | .opens b => (Frame.ofRegion b r :: stack, [])
    | .closes b =>
      match stack with
      | [] => ([], [.unexpectedCloser b])
      | frame :: rest =>
        (rest, if frame.block = b then [] else [.mismatchedCloser frame.block b])
    | .branch => (stack, [])
    | .inline => (stack, [])

/-- A loop names what it runs over after the word `in`. -/
def namesLoopRange (content : List Char) : Bool :=
  Text.occursIn " in ".toList (' ' :: content ++ [' '])

/-- What is wrong with the arguments of a statement. -/
def argumentCauses (s : Statement) (content : List Char) : List Cause :=
  if s.isClosing then []
  else if s.keyword = "for".toList then
    if namesLoopRange content then [] else [.invalidForLoop]
  else if s.keyword = "set".toList then
    if s.args.isEmpty then [.invalidSet] else []
  else if s.keyword = "include".toList then
    if s.args.any fun c => c = '\'' || c = '"' then [] else [.includeNotString]
  else []

def statementCauses (options : LintOptions) (r : Region) (content : List Char)
    (stack : List Frame) : List Frame × List Cause :=
  if content.isEmpty then (stack, [.emptyStatement])
  else
    let s := Statement.ofContent content
    let (stack, nesting) := nest r s.role s.reportedName stack
    (stack, nesting ++ argumentCauses s content ++ operatorCauses options content)

/-- The open blocks after a region, and what is wrong with the region. -/
def regionCauses (options : LintOptions) (r : Region) (stack : List Frame) :
    List Frame × List Cause :=
  match r.kind with
  | .text => (stack, [])
  | .template .comment => (stack, [])
  | .template .output => (stack, outputCauses options r.content)
  | .template .statement => statementCauses options r r.content stack
  | .unterminated .output => (stack, [.unclosedOutput])
  | .unterminated .statement => (stack, [.unclosedStatement])
  | .unterminated .comment => (stack, [.unclosedComment])

/-- The open blocks after some regions, and the findings they make in order. -/
def run (options : LintOptions) : List Frame → List Region → List Frame × List Finding
  | stack, [] => (stack, [])
  | stack, r :: rs =>
    let (next, causes) := regionCauses options r stack
    let (last, found) := run options next rs
    (last, causes.map (⟨r.line, r.column, ·⟩) ++ found)

/-- What a block that is never closed is reported for. A block assignment without its closing
statement may be an assignment without a value, so it is reported as that too. -/
def Frame.leftover (f : Frame) : List Finding :=
  (if f.block = .assignment then [⟨f.line, f.column, .invalidSet⟩] else []) ++
    [⟨f.line, f.column, .unclosedBlock f.block⟩]

end Analysis

/-- The report on a template. -/
def analyze (options : LintOptions) (cs : List Char) : Report :=
  let (stack, found) := Analysis.run options [] (Region.ofLines cs).flatten
  .ofFindings (found ++ stack.reverse.flatMap Analysis.Frame.leftover)

end TwigTemplate
