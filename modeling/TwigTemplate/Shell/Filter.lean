import TwigTemplate.FileTree.Basic
import TwigTemplate.Text.Search
import TwigTemplate.Text.Lines

/-!
# Filters

What `tr`, `head` and `sed` make of their input, each in its common forms: `tr` maps the bytes of
one set to another or deletes a set, `head` keeps the start, and `sed` runs one substitution of a
literal text on every line. A filter that is called in another form has no result.
-/

namespace TwigTemplate.Shell

def encode (cs : List Char) : List UInt8 :=
  (String.ofList cs).toUTF8.toList

namespace Filter

/-- The characters from one to another, both included. -/
def span (low high : Char) : List Char :=
  (List.range (high.toNat + 1 - low.toNat)).map fun n => Char.ofNat (low.toNat + n)

/-- The named classes of characters. -/
def classes : List (List Char × List Char) :=
  [("[:lower:]".toList, span 'a' 'z'), ("[:upper:]".toList, span 'A' 'Z'),
    ("[:digit:]".toList, span '0' '9'), ("[:space:]".toList, " \t\n\x0b\x0c\r".toList)]

/-- The members of a set: ranges, escapes and single characters. -/
def members : List Char → List Char
  | '\\' :: 'n' :: r => '\n' :: members r
  | '\\' :: 't' :: r => '\t' :: members r
  | '\\' :: c :: r => c :: members r
  | low :: '-' :: high :: r => span low high ++ members r
  | c :: r => c :: members r
  | [] => []

/-- The bytes that a set of `tr` stands for. -/
def set (cs : List Char) : List UInt8 :=
  encode ((classes.lookup cs).getD (members cs))

/-- Map each byte of one set to the byte at its place in the other, whose last byte is repeated. -/
def exchange (source target : List UInt8) (input : List UInt8) : List UInt8 :=
  let padding := List.replicate (source.length - target.length) (target.getLastD 0)
  let table := (source.zip (target ++ padding)).reverse
  input.map fun b => (table.lookup b).getD b

/-- The first `n` lines, with their line ends. -/
def firstLines : Nat → List UInt8 → List UInt8
  | 0, _ => []
  | _ + 1, [] => []
  | n + 1, b :: r => b :: firstLines (if b = 10 then n else n + 1) r

/-! ## Substitutions -/

/-- One substitution on each line. -/
structure Substitution where
  /-- The text is at the start of the line. -/
  atStart : Bool
  /-- The text is at the end of the line. -/
  atEnd : Bool
  text : List Char
  replacement : List Char
  /-- Every occurrence is replaced, and not the first alone. -/
  everywhere : Bool

namespace Substitution

/-- Characters with a special sense in a pattern. -/
def isSpecial (c : Char) : Bool :=
  c = '.' || c = '*' || c = '[' || c = '\\' || c = '^' || c = '$' || c = '&'

/-- The substitution that an expression like `s/a/b/g` describes, if its texts are literal. -/
def ofText? (cs : List Char) : Option Substitution :=
  match cs with
  | 's' :: mark :: r =>
    match Text.splitAt mark r with
    | [pattern, replacement, flags] =>
      let atStart := pattern.head? = some '^'
      let pattern := if atStart then pattern.tail else pattern
      let atEnd := pattern.getLast? = some '$'
      let text := if atEnd then pattern.dropLast else pattern
      if (text ++ replacement).any isSpecial || !(flags = [] || flags = ['g']) then none
      else if text.isEmpty && !atStart && !atEnd then none
      else some ⟨atStart, atEnd, text, replacement, flags = ['g']⟩
    | _ => none
  | _ => none

/-- Replace the text where it occurs in a line. The first argument counts the characters of an
occurrence still to be passed over. -/
def replace (s : Substitution) : Nat → List Char → List Char
  | _, [] => []
  | skip + 1, _ :: r => replace s skip r
  | 0, c :: r =>
    match Text.after? s.text (c :: r) with
    | some rest =>
      s.replacement ++ if s.everywhere then replace s (s.text.length - 1) r else rest
    | none => c :: replace s 0 r

def onLine (s : Substitution) (line : List Char) : List Char :=
  if s.atStart && s.atEnd then if line = s.text then s.replacement else line
  else if s.atStart then
    match Text.after? s.text line with
    | some rest => s.replacement ++ rest
    | none => line
  else if s.atEnd then
    if Text.endsWith s.text line then
      line.take (line.length - s.text.length) ++ s.replacement
    else line
  else s.replace 0 line

/-- The text after the last newline is a line if it is not empty. -/
def onText (s : Substitution) (cs : List Char) : List Char :=
  let parts := Text.splitAt '\n' cs
  let last := parts.getLast?.getD []
  Text.joinWith ['\n'] (parts.dropLast.map s.onLine ++
    [if last.isEmpty then [] else s.onLine last])

end Substitution

/-! ## Calls -/

/-- What a filter writes when it is called with arguments on an input. -/
def run? (name : List Char) (arguments : List (List Char)) (input : List UInt8) :
    Option (List UInt8) :=
  match String.ofList name, arguments.map String.ofList with
  | "tr", ["-d", chars] => some (input.filter (· ∉ set chars.toList))
  | "tr", [source, target] => some (exchange (set source.toList) (set target.toList) input)
  | "head", [] => some (firstLines 10 input)
  | "head", ["-n", n] => n.toNat?.map (firstLines · input)
  | "head", ["-c", n] => n.toNat?.map (input.take ·)
  | "sed", [script] | "sed", ["-e", script] =>
    match Substitution.ofText? script.toList, Content.ofBytes input with
    | some s, .text cs => some (encode (s.onText cs))
    | _, _ => none
  | _, _ => none

end Filter

end TwigTemplate.Shell
