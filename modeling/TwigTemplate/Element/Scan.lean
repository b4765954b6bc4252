import TwigTemplate.Element.Extent
import TwigTemplate.Vocabulary.Lookup

/-!
# Finding element tags

A text is read from left to right. Comments, template code and the content of `script` and `style`
hold no tags. A start tag that never reaches its `>` takes the rest of the text with it and is no
tag.

`step` says for the text at hand which tag starts there, if any, and how many characters belong
together; the line of a tag is the number of newlines passed before it.
-/

namespace TwigTemplate.Element

def isNameStart (c : Char) : Bool :=
  c.isAlpha

def isNameChar (c : Char) : Bool :=
  c.isAlphanum || c = ':' || c = '-'

/-- Elements whose content is not markup. -/
def holdsRawText (name : List Char) : Bool :=
  name = "script".toList || name = "style".toList

/-- A tag without its place, and the number of characters read. -/
structure Step where
  tag : Option (List Char × Kind)
  length : Nat

def Step.skip (n : Nat) : Step := ⟨none, n⟩

/-- A start tag whose name stands at the start of the text. -/
def startTag (cs : List Char) : Step :=
  let name := Text.lowerAscii (cs.takeWhile isNameChar)
  let rest := cs.dropWhile isNameChar
  match startTagEnd? 0 rest with
  | none => .skip cs.length
  | some (end?, n) =>
    let kind := if end? = .opens ∧ Vocabulary.isVoidElement name then .void else end?
    let raw := if kind = .opens ∧ holdsRawText name then rawTextLength name (rest.drop n) else 0
    ⟨some (name, kind), name.length + n + raw⟩

/-- An end tag whose name stands at the start of the text; blanks may follow the name. -/
def endTag? (cs : List Char) : Option Step :=
  let name := cs.takeWhile isNameChar
  let rest := cs.dropWhile isNameChar
  let gap := rest.takeWhile fun c => c = ' ' || c = '\t'
  match rest.drop gap.length with
  | '>' :: _ => some ⟨some (Text.lowerAscii name, .closes), name.length + gap.length + 1⟩
  | _ => none

/-- What starts at `c`, which `r` follows. The length counts the characters of `r` alone. -/
def step (c : Char) (r : List Char) : Step :=
  if c = '<' then
    match r with
    | '!' :: '-' :: '-' :: rest => .skip (3 + commentLength rest)
    | '/' :: d :: rest =>
      if isNameStart d then
        match endTag? (d :: rest) with
        | some s => ⟨s.tag, s.length + 1⟩
        | none => .skip 0
      else .skip 0
    | d :: rest => if isNameStart d then startTag (d :: rest) else .skip 0
    | [] => .skip 0
  else match Form.opening? (c :: r) with
    | some form => .skip (1 + codeLength form (r.drop 1))
    | none => .skip 0

/-- The tags of a text that starts on the given line. -/
def tagsFrom (line : Nat) : List Char → List Element
  | [] => []
  | c :: r =>
    let s := step c r
    let next := line + Text.newlineCount (c :: r.take s.length)
    let more := tagsFrom next (r.drop s.length)
    match s.tag with
    | some (name, kind) => ⟨name, kind, line⟩ :: more
    | none => more
termination_by cs => cs.length
decreasing_by simp only [List.length_drop, List.length_cons]; omega

/-- The tags of a text, in order. -/
def tags (cs : List Char) : List Element :=
  tagsFrom 0 cs

/-- The tags of each of the first `count` lines. -/
def tagsByLine (cs : List Char) (count : Nat) : List (List Element) :=
  let all := tags cs
  (List.range count).map fun line => all.filter (·.line = line)

end TwigTemplate.Element
