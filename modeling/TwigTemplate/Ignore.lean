import TwigTemplate.FileTree.Basic
import TwigTemplate.Glob.Parse
import TwigTemplate.Path
import TwigTemplate.Text.Blank
import TwigTemplate.Text.Lines
import TwigTemplate.Text.Search

/-!
# Ignore rules

An ignore file has one rule a line. A glob with a slash in it matches from the root of the project,
any other at every depth; a slash at the end restricts a rule to directories, and a bang in front
makes it keep what earlier rules leave out. The last rule that applies decides.
-/

namespace TwigTemplate.Ignore

structure Rule where
  pattern : Glob.Pattern
  /-- What matches is not left out. -/
  keeps : Bool
  directoriesOnly : Bool

/-- Stars stop at slashes, and a bracket that is never closed is an ordinary character. -/
def style : Glob.Style := ⟨false, true⟩

/-- A line without the spaces at its end, which count only after a backslash. -/
def trimLine (line : List Char) : List Char :=
  if Text.endsWith "\\ ".toList line then line else Text.trimEnd line

/-- The marks in front of a glob: does the rule keep, is the glob anchored, and the glob. -/
def readMarks (line : List Char) : Bool × Bool × List Char :=
  let anchored (cs : List Char) :=
    match cs with
    | '/' :: r => (true, r)
    | r => (false, r)
  match line with
  | '\\' :: '!' :: r => (false, false, '!' :: r)
  | '\\' :: '#' :: r => (false, false, '#' :: r)
  | '!' :: r => (true, anchored r)
  | r => (false, anchored r)

/-- A glob without the slash at its end, and was there one? -/
def readSlash (glob : List Char) : Bool × List Char :=
  if glob.getLast? = some '/' then
    let front := glob.dropLast
    (true, if front.getLast? = some '\\' then front.dropLast else front)
  else (false, glob)

/-- The glob against which whole paths are matched. -/
def wholePath (anchored : Bool) (glob : List Char) : List Char :=
  let rooted := anchored || glob.contains '/' || glob = "**".toList
  let glob := if rooted then glob else "**/".toList ++ glob
  if Text.endsWith "/**".toList glob then glob ++ "/*".toList else glob

/-- The rule of a line. Comments and blank lines have none. -/
def Rule.ofLine (line : List Char) : Except Glob.Fault (Option Rule) := do
  if line.head? = some '#' then return none
  let line := trimLine line
  if line.isEmpty then return none
  let (keeps, anchored, glob) := readMarks line
  let (directoriesOnly, glob) := readSlash glob
  return some ⟨← Glob.parse style (wholePath anchored glob), keeps, directoriesOnly⟩

def Rule.applies (rule : Rule) (path : List UInt8) (isDirectory : Bool) : Bool :=
  (isDirectory || !rule.directoriesOnly) && rule.pattern.isMatch path

/-- The last rule that applies to a path leaves it out. -/
def ignores (rules : List Rule) (path : List UInt8) (isDirectory : Bool) : Bool :=
  match (rules.filter fun rule => rule.applies path isDirectory).getLast? with
  | some rule => !rule.keeps
  | none => false

/-! ## Where rules come from -/

/-- The lines at the start of a file that are text. -/
def textLines : Content → List (List Char)
  | .text cs => Text.lines (cs.dropWhile (· = '\uFEFF'))
  | .binary bytes =>
    let decoded := (bytes.splitOn (10 : UInt8)).map Content.ofBytes
    let texts := decoded.map fun line =>
      match line with
      | .text cs => some cs
      | .binary _ => none
    let found := (texts.takeWhile Option.isSome).filterMap id
    Text.lines ((found.flatMap (· ++ ['\n'])).dropWhile (· = '\uFEFF'))

/-- The rules of lines. Lines that are no rules are passed over. -/
def ofLines (lines : List (List Char)) : List Rule :=
  lines.filterMap fun line =>
    match Rule.ofLine line with
    | .ok rule => rule
    | .error _ => none

/-- The rules of an ignore file. -/
def ofFile (content : Content) : List Rule :=
  ofLines (textLines content)

/-! ## What is matched -/

/-- A text without `start` in front, if it is there. -/
def dropStart (start cs : List Char) : List Char :=
  (Text.after? start cs).getD cs

/-- The text of a path that rules are matched against: the path below the root, as far as the two
are written alike. -/
def subject (root path : Path) : List UInt8 :=
  let dot := "./".toList
  let top := dropStart dot root.text.toList
  let below := dropStart dot path.text.toList
  let rest :=
    if (Path.ofText top).components ≠ [.here] && below.contains '/' then
      match Text.after? top below with
      | some rest => dropStart ['/'] rest
      | none => below
    else below
  (String.ofList rest).toUTF8.toList

end TwigTemplate.Ignore
