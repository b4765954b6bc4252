import TwigTemplate.Toml.Quoted
import TwigTemplate.Toml.Value

/-!
# Reading a document

A document is a sequence of lines: a key with its value, the header of a table, the repeated header
of an array of tables, or nothing but a comment. Arrays and inline tables may run over several lines
and end in a comma. A document that breaks a rule is not read at all.
-/

namespace TwigTemplate.Toml

def skipSpaces (cs : List Char) : List Char :=
  cs.dropWhile isSpace

/-- What follows the comment at the start of the text, up to the line end; a text without a comment
stays. -/
def skipComment? (cs : List Char) : Option (List Char) :=
  match cs with
  | '#' :: r =>
    let rest := r.dropWhile (!isForbidden ·)
    if rest.isEmpty || (lineEnd? rest).isSome then some rest else none
  | _ => some cs

/-- Skip blanks, comments and line ends. -/
def skipTrivia? : (fuel : Nat) → List Char → Option (List Char)
  | 0, cs => some cs
  | fuel + 1, cs => do
    let r ← skipComment? (skipSpaces cs)
    match lineEnd? r with
    | some r => skipTrivia? fuel r
    | none => return r

/-- Skip what may stand after an expression on its line, the line end included. -/
def finishLine? (cs : List Char) : Option (List Char) := do
  let r ← skipComment? (skipSpaces cs)
  if r.isEmpty then return [] else lineEnd? r

def isBareKeyChar (c : Char) : Bool :=
  c.isAlphanum || c = '_' || c = '-'

/-- One part of a key. -/
def keyPart? (cs : List Char) : Option (String × List Char) :=
  match key? cs with
  | some (s, r) => some (String.ofList s, r)
  | none =>
    let bare := cs.takeWhile isBareKeyChar
    if bare.isEmpty then none else some (String.ofList bare, cs.dropWhile isBareKeyChar)

/-- A key whose parts are joined by dots: all parts but the last, the last part, and what follows it
and the blanks after it. -/
def key : (fuel : Nat) → List Char → Option (List String × String × List Char)
  | 0, _ => none
  | fuel + 1, cs => do
    let (part, r) ← keyPart? (skipSpaces cs)
    match skipSpaces r with
    | '.' :: r => do
      let (path, last, r) ← key fuel r
      return (part :: path, last, r)
    | r => return ([], part, r)

/-- The characters that a plain scalar is made of. -/
def isScalarChar (c : Char) : Bool :=
  c.isAlphanum || c = '_' || c = '-' || c = '+' || c = '.' || c = ':'

/-- The plain scalar at the start of the text; a time after a date and one space belongs to it. -/
def cutScalar (cs : List Char) : List Char × List Char :=
  let first := cs.takeWhile isScalarChar
  let rest := cs.dropWhile isScalarChar
  match rest with
  | ' ' :: d :: r =>
    if d.isDigit && date? first = some [] then
      (first ++ ' ' :: (d :: r).takeWhile isScalarChar, (d :: r).dropWhile isScalarChar)
    else (first, rest)
  | _ => (first, rest)

def scalar? (cs : List Char) : Option Value :=
  if cs = "true".toList then some (.boolean true)
  else if cs = "false".toList then some (.boolean false)
  else match integer? cs with
    | some n => if inReach n then some (.integer n) else none
    | none =>
      if isFloat cs then some .float
      else if isDatetime cs then some .datetime
      else none

/-- How deep arrays and inline tables may be nested. -/
def maxDepth : Nat := 80

mutual

/-- A value at the start of the text. -/
def value : (fuel depth : Nat) → List Char → Option (Value × List Char)
  | 0, _, _ => none
  | fuel + 1, depth, cs =>
    match cs, depth with
    | '[' :: _, 0 => none
    | '{' :: _, 0 => none
    | '[' :: r, depth + 1 => (items fuel depth r).map fun (vs, r) => (.array vs, r)
    | '{' :: r, depth + 1 => (fields fuel depth [] r).map fun (es, r) => (.table .inline es, r)
    | _, _ =>
      match string? cs with
      | some (s, r) => some (.string (String.ofList s), r)
      | none =>
        let (text, r) := cutScalar cs
        (scalar? text).map (·, r)

/-- The items of an array, read after its bracket or a comma. -/
def items : (fuel depth : Nat) → List Char → Option (List Value × List Char)
  | 0, _, _ => none
  | fuel + 1, depth, cs => do
    match ← skipTrivia? fuel cs with
    | ']' :: r => return ([], r)
    | r => do
      let (v, r) ← value fuel depth r
      match ← skipTrivia? fuel r with
      | ',' :: r => do
        let (vs, r) ← items fuel depth r
        return (v :: vs, r)
      | ']' :: r => return ([v], r)
      | _ => none

/-- The fields of an inline table, read after its brace or a comma, added to those before. -/
def fields : (fuel depth : Nat) → Entries → List Char → Option (Entries × List Char)
  | 0, _, _, _ => none
  | fuel + 1, depth, es, cs => do
    match ← skipTrivia? fuel cs with
    | '}' :: r => return (es, r)
    | r => do
      let (path, last, r) ← key fuel r
      let r ← Text.after? ['='] r
      let (v, r) ← value fuel depth (skipSpaces r)
      let (_, es) ← addDotted path last v .inline es
      match ← skipTrivia? fuel r with
      | ',' :: r => fields fuel depth es r
      | '}' :: r => return (es, r)
      | _ => none

end

/-- A header's key, read after its brackets, and what follows the closing ones. -/
def header? (closing : List Char) (cs : List Char) :
    Option (List String × String × List Char) := do
  let (path, last, r) ← key (cs.length + 1) cs
  return (path, last, ← finishLine? (← Text.after? closing r))

/-- Read lines into the table at the path `current` of a document. -/
def readLines : (fuel : Nat) → (current : List String) → Entries → List Char → Option Entries
  | 0, _, _, _ => none
  | fuel + 1, current, es, cs =>
    let line := skipSpaces cs
    match Text.after? ['[', '['] line, Text.after? ['['] line with
    | some r, _ => do
      let (path, last, r) ← header? [']', ']'] r
      let (_, es) ← reach false (openRepeated last) path .header es
      readLines fuel (path ++ [last]) es r
    | none, some r => do
      let (path, last, r) ← header? [']'] r
      let (_, es) ← reach false (openTable last) path .header es
      readLines fuel (path ++ [last]) es r
    | none, none =>
      match line with
      | [] => some es
      | c :: _ =>
        if c = '#' || (lineEnd? line).isSome then do readLines fuel current es (← finishLine? line)
        else do
          let (path, last, r) ← key (line.length + 1) line
          let r ← Text.after? ['='] r
          let (v, r) ← value (2 * r.length + 2) maxDepth (skipSpaces r)
          let (_, es) ← reach false (addDotted path last v) current .header es
          readLines fuel current es (← finishLine? r)

/-- The byte order mark, which may start a document. -/
def byteOrderMark : Char := '\ufeff'

/-- The entries of a document. -/
def read? (cs : List Char) : Option Entries :=
  let cs := if cs.head? = some byteOrderMark then cs.drop 1 else cs
  readLines (cs.length + 1) [] [] cs

end TwigTemplate.Toml
