/-!
# Writing JSON

Texts of JSON values, without spaces between their parts. In a string the quote, the backslash and
the control characters are escaped, and every other character stands for itself.
-/

namespace TwigTemplate.Text.Json

def hexDigit (n : Nat) : Char :=
  if n < 10 then Char.ofNat (48 + n) else Char.ofNat (87 + n)

/-- How a character is written in a string. -/
def escape (c : Char) : List Char :=
  if c = '"' then ['\\', '"']
  else if c = '\\' then ['\\', '\\']
  else if c.toNat = 8 then ['\\', 'b']
  else if c.toNat = 12 then ['\\', 'f']
  else if c = '\n' then ['\\', 'n']
  else if c = '\r' then ['\\', 'r']
  else if c = '\t' then ['\\', 't']
  else if c.toNat < 32 then "\\u00".toList ++ [hexDigit (c.toNat / 16), hexDigit (c.toNat % 16)]
  else [c]

def string (s : String) : String :=
  "\"" ++ String.ofList (s.toList.flatMap escape) ++ "\""

def number (n : Nat) : String :=
  toString n

def bool (b : Bool) : String :=
  if b then "true" else "false"

def array (items : List String) : String :=
  "[" ++ ",".intercalate items ++ "]"

/-- An object from names and written values, in the order given. -/
def object (fields : List (String × String)) : String :=
  "\x7b" ++ ",".intercalate (fields.map fun (name, value) => string name ++ ":" ++ value) ++ "\x7d"

end TwigTemplate.Text.Json
