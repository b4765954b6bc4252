import TwigTemplate.Glob.Pattern

/-!
# Bracket sets

`[a-c_]` stands for one byte of the characters listed, `[!a-c_]` and `[^a-c_]` for one of the others.
A closing bracket or a hyphen in front stands for itself, and so does a hyphen at the end. Sets are
read as ranges of characters and matched byte by byte: a character of several bytes brings in each
of them.
-/

namespace TwigTemplate.Glob

/-- Why a glob is refused. -/
inductive Fault where
  | unclosedBrace
  | unopenedBrace
  | unclosedBracket
  | danglingEscape
  | descendingRange
  deriving DecidableEq, Repr

def utf8 (c : Char) : List UInt8 :=
  (String.singleton c).toUTF8.toList

/-- What was read after an opening bracket. -/
inductive Bracket where
  | closed (ranges : List (Char × Char)) (rest : List Char)
  | unclosed
  | descending

namespace Bracket

/-- Read members until the closing bracket. A hyphen was just read if `hyphen` is set; `ranges` has
the last range in front. -/
def members (hyphen : Bool) (ranges : List (Char × Char)) : List Char → Bracket
  | [] => .unclosed
  | c :: r =>
    if c = ']' && !ranges.isEmpty then
      .closed (if hyphen then ('-', '-') :: ranges else ranges).reverse r
    else if hyphen then
      match ranges with
      | (low, _) :: more => if c < low then .descending else members false ((low, c) :: more) r
      | [] => members false [(c, c)] r
    else if c = '-' && !ranges.isEmpty then members true ranges r
    else members false ((c, c) :: ranges) r

/-- A set is turned round by a mark in front. -/
def isMark (c : Char) : Bool :=
  c = '!' || c = '^'

/-- Is the set turned round, and what does it hold? -/
def read (cs : List Char) : Bool × Bracket :=
  match cs with
  | c :: r => if isMark c then (true, members false [] r) else (false, members false [] cs)
  | [] => (false, .unclosed)

/-- The bytes of a range of characters. Between the last byte of the one end and the first byte of
the other every byte is in. -/
def byteRanges (range : Char × Char) : List (UInt8 × UInt8) :=
  let single (b : UInt8) := (b, b)
  if range.1 = range.2 then (utf8 range.1).map single
  else
    let low := utf8 range.1
    let high := utf8 range.2
    low.dropLast.map single ++ (low.getLast?.toList.zip high) ++ high.tail.map single

def pattern (negated : Bool) (ranges : List (Char × Char)) : Pattern :=
  let sets := ranges.flatMap byteRanges
  .one fun b => negated != sets.any fun (low, high) => low ≤ b && b ≤ high

theorem members_length_lt {hyphen : Bool} {ranges found : List (Char × Char)} {cs rest : List Char}
    (h : members hyphen ranges cs = .closed found rest) : rest.length < cs.length := by
  induction cs generalizing hyphen ranges with
  | nil => simp [members] at h
  | cons c r ih =>
    simp only [members] at h
    split at h
    · simp only [closed.injEq] at h
      simp [← h.2]
    · split at h
      · split at h
        · split at h
          · simp at h
          · exact Nat.lt_succ_of_lt (ih h)
        · exact Nat.lt_succ_of_lt (ih h)
      · split at h <;> exact Nat.lt_succ_of_lt (ih h)

theorem read_length_lt {negated : Bool} {found : List (Char × Char)} {cs rest : List Char}
    (h : read cs = (negated, .closed found rest)) : rest.length < cs.length := by
  unfold read at h
  split at h
  · split at h
    · simp only [Prod.mk.injEq] at h
      exact Nat.lt_succ_of_lt (members_length_lt h.2)
    · simp only [Prod.mk.injEq] at h
      exact members_length_lt h.2
  · simp at h

end Bracket

end TwigTemplate.Glob
