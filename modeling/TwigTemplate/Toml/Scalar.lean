import TwigTemplate.Text.Search

/-!
# Numbers and dates

The plain scalars of a TOML document, as the characters between two separators.
-/

namespace TwigTemplate.Toml

/-- Digits of a base with single underscores between them: the digits, at least one. -/
def digits? (isDigit : Char → Bool) : List Char → Option (List Char)
  | [] => none
  | [c] => if isDigit c then some [c] else none
  | c :: '_' :: r => if isDigit c then (digits? isDigit r).map (c :: ·) else none
  | c :: r => if isDigit c then (digits? isDigit r).map (c :: ·) else none

def digitValue (c : Char) : Nat :=
  if c.isDigit then c.toNat - '0'.toNat else c.toLower.toNat - 'a'.toNat + 10

def isHexDigit (c : Char) : Bool :=
  c.isDigit || ('a' ≤ c.toLower && c.toLower ≤ 'f')

def isBaseDigit (base : Nat) (c : Char) : Bool :=
  isHexDigit c && digitValue c < base

def numberOf (base : Nat) (ds : List Char) : Nat :=
  ds.foldl (fun n d => base * n + digitValue d) 0

/-- The sign at the start of a number, and the rest. -/
def cutSign : List Char → Bool × List Char
  | '-' :: r => (true, r)
  | '+' :: r => (false, r)
  | cs => (false, cs)

/-- A decimal number has no needless zero in front. -/
def decimalDigits? (cs : List Char) : Option (List Char) := do
  let ds ← digits? Char.isDigit cs
  if ds.head? = some '0' ∧ ds.length ≠ 1 then none else return ds

def integer? : List Char → Option Int
  | '0' :: 'x' :: r => (digits? isHexDigit r).map fun ds => numberOf 16 ds
  | '0' :: 'o' :: r => (digits? (isBaseDigit 8) r).map fun ds => numberOf 8 ds
  | '0' :: 'b' :: r => (digits? (isBaseDigit 2) r).map fun ds => numberOf 2 ds
  | cs => do
    let (negative, r) := cutSign cs
    let n := numberOf 10 (← decimalDigits? r)
    return if negative then -(n : Int) else n

/-- The widest integers that are read: 128 bits, with or without a sign. -/
def inReach (n : Int) : Bool :=
  -(Nat.pow 2 127 : Nat) ≤ n && n < (Nat.pow 2 128 : Nat)

/-- A decimal number `mantissa · 10 ^ exponent` below the limit of a 64-bit float. -/
def isFinite (mantissa : Nat) (exponent : Int) : Bool :=
  let width := (Nat.toDigits 10 mantissa).length + exponent
  mantissa = 0 || width < 300 ||
    (width < 320 && mantissa * Nat.pow 10 exponent.toNat <
      (Nat.pow 2 1024 - Nat.pow 2 970) * Nat.pow 10 (-exponent).toNat)

/-- The exponent of a float: digits after a sign, zeros in front allowed. -/
def exponent? (cs : List Char) : Option Int := do
  let (negative, r) := cutSign cs
  let n := numberOf 10 (← digits? Char.isDigit r)
  return if negative then -(n : Int) else n

def isExponentMark (c : Char) : Bool :=
  c = 'e' || c = 'E'

/-- A float: it has a fraction, an exponent or both, or is infinite or no number. -/
def isFloat (cs : List Char) : Bool :=
  let (_, r) := cutSign cs
  if r = "inf".toList ∨ r = "nan".toList then true
  else
    let number := r.takeWhile (!isExponentMark ·)
    let whole := number.takeWhile (· ≠ '.')
    let fraction? := match number.drop whole.length with
      | [] => some []
      | _ :: f => digits? Char.isDigit f
    let power? := match r.drop number.length with
      | [] => some 0
      | _ :: e => exponent? e
    match decimalDigits? whole, fraction?, power? with
    | some ws, some fs, some e =>
      (number.length < r.length || whole.length < number.length) &&
        isFinite (numberOf 10 (ws ++ fs)) (e - fs.length)
    | _, _, _ => false

/-- A number of exactly two digits within bounds. -/
def twoDigits? (low high : Nat) : List Char → Option (Nat × List Char)
  | a :: b :: r =>
    let n := numberOf 10 [a, b]
    if a.isDigit && b.isDigit && low ≤ n && n ≤ high then some (n, r) else none
  | _ => none

def isLeapYear (year : Nat) : Bool :=
  (year % 4 = 0 && year % 100 ≠ 0) || year % 400 = 0

def daysIn (year month : Nat) : Nat :=
  if month = 2 then (if isLeapYear year then 29 else 28)
  else if month = 4 ∨ month = 6 ∨ month = 9 ∨ month = 11 then 30
  else 31

/-- What follows a date `YYYY-MM-DD`. -/
def date? (cs : List Char) : Option (List Char) := do
  let year := cs.take 4
  if year.length ≠ 4 ∨ !year.all Char.isDigit then none
  let (month, r) ← twoDigits? 1 12 (← Text.after? ['-'] (cs.drop 4))
  let (_, r) ← twoDigits? 1 (daysIn (numberOf 10 year) month) (← Text.after? ['-'] r)
  return r

/-- What follows the seconds of a time and their fraction. -/
def seconds? (cs : List Char) : Option (List Char) := do
  let (_, r) ← twoDigits? 0 60 cs
  match r with
  | '.' :: f => if (f.takeWhile Char.isDigit).isEmpty then none else return f.dropWhile Char.isDigit
  | _ => return r

/-- What follows a time `HH:MM`, with seconds or without. -/
def time? (cs : List Char) : Option (List Char) := do
  let (_, r) ← twoDigits? 0 23 cs
  let (_, r) ← twoDigits? 0 59 (← Text.after? [':'] r)
  match r with
  | ':' :: s => seconds? s
  | _ => return r

/-- What follows an offset from universal time; it may be missing. -/
def offset? : List Char → Option (List Char)
  | [] => some []
  | c :: r =>
    if c = 'Z' ∨ c = 'z' then some r
    else if c = '+' ∨ c = '-' then do
      let (_, r) ← twoDigits? 0 23 r
      let (_, r) ← twoDigits? 0 59 (← Text.after? [':'] r)
      return r
    else none

/-- A date, a time, or both with an offset or without. -/
def isDatetime (cs : List Char) : Bool :=
  match date? cs with
  | some [] => true
  | some (c :: r) =>
    (c = 'T' || c = 't' || c = ' ') && ((time? r).bind offset?) = some []
  | none => time? cs = some []

end TwigTemplate.Toml
