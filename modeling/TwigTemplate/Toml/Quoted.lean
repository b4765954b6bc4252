import TwigTemplate.Text.Search
import TwigTemplate.Toml.Scalar

/-!
# Strings

The four string forms of TOML: double quotes with escapes, single quotes without, and each of them
in threes over several lines. A function returns the text and what follows the closing quotes.
-/

namespace TwigTemplate.Toml

/-- Characters that may not stand in a document as they are: controls other than a tab. -/
def isForbidden (c : Char) : Bool :=
  (c.toNat < 0x20 && c ≠ '\t') || c.toNat = 0x7F

/-- The character with a hexadecimal number of exactly `n` digits, and the rest. -/
def hexChar? (n : Nat) (cs : List Char) : Option (Char × List Char) :=
  let ds := cs.take n
  let code := numberOf 16 ds
  if ds.length = n ∧ ds.all isHexDigit ∧ code.isValidChar then
    some (Char.ofNat code, cs.drop n)
  else none

/-- The character that an escape stands for, read after the backslash. -/
def escape? : List Char → Option (Char × List Char)
  | 'b' :: r => some ('\x08', r)
  | 't' :: r => some ('\t', r)
  | 'n' :: r => some ('\n', r)
  | 'f' :: r => some ('\x0c', r)
  | 'r' :: r => some ('\r', r)
  | 'e' :: r => some ('\x1b', r)
  | '"' :: r => some ('"', r)
  | '\\' :: r => some ('\\', r)
  | 'x' :: r => hexChar? 2 r
  | 'u' :: r => hexChar? 4 r
  | 'U' :: r => hexChar? 8 r
  | _ => none

/-- A string between single characters `quote`, read after the first. -/
def lineString? (quote : Char) (escapes : Bool) : (fuel : Nat) → List Char →
    Option (List Char × List Char)
  | 0, _ => none
  | _ + 1, [] => none
  | fuel + 1, c :: r =>
    if c = quote then some ([], r)
    else if c = '\\' ∧ escapes then do
      let (e, r) ← escape? r
      let (s, r) ← lineString? quote escapes fuel r
      return (e :: s, r)
    else if isForbidden c then none
    else (lineString? quote escapes fuel r).map fun (s, r) => (c :: s, r)

/-- What follows a line end, if one starts the text. -/
def lineEnd? : List Char → Option (List Char)
  | '\n' :: r => some r
  | '\r' :: '\n' :: r => some r
  | _ => none

def isSpace (c : Char) : Bool :=
  c = ' ' || c = '\t'

/-- What follows a backslash that ends a line: all blanks and line ends after it are left out. -/
def foldedLine? (cs : List Char) : Option (List Char) := do
  let r ← lineEnd? (cs.dropWhile isSpace)
  return r.dropWhile fun c => isSpace c || c = '\n' || c = '\r'

/-- A string between three characters `quote`, read after the first three and a line end after them.
Up to two more quotes may stand before the closing ones. -/
def blockString? (quote : Char) (escapes : Bool) : (fuel : Nat) → List Char →
    Option (List Char × List Char)
  | 0, _ => none
  | _ + 1, [] => none
  | fuel + 1, c :: r =>
    if c = quote then
      match Text.after? [quote, quote] r with
      | some rest =>
        match Text.after? [quote, quote] rest, Text.after? [quote] rest with
        | some rest, _ => some ([quote, quote], rest)
        | none, some rest => some ([quote], rest)
        | none, none => some ([], rest)
      | none => (blockString? quote escapes fuel r).map fun (s, r) => (c :: s, r)
    else if c = '\\' ∧ escapes then
      match foldedLine? r with
      | some r => blockString? quote escapes fuel r
      | none => do
        let (e, r) ← escape? r
        let (s, r) ← blockString? quote escapes fuel r
        return (e :: s, r)
    else if isForbidden c ∧ (lineEnd? (c :: r)).isNone then none
    else if c = '\r' then
      (blockString? quote escapes fuel (r.drop 1)).map fun (s, r) => ('\r' :: '\n' :: s, r)
    else (blockString? quote escapes fuel r).map fun (s, r) => (c :: s, r)

/-- A string of one line at the start of the text. -/
def key? : List Char → Option (List Char × List Char)
  | '"' :: r => lineString? '"' true (r.length + 1) r
  | '\'' :: r => lineString? '\'' false (r.length + 1) r
  | _ => none

/-- A string of any form at the start of the text. -/
def string? (cs : List Char) : Option (List Char × List Char) :=
  match Text.after? ['"', '"', '"'] cs, Text.after? ['\'', '\'', '\''] cs with
  | some r, _ => let r := (lineEnd? r).getD r; blockString? '"' true (r.length + 1) r
  | none, some r => let r := (lineEnd? r).getD r; blockString? '\'' false (r.length + 1) r
  | none, none => key? cs

end TwigTemplate.Toml
