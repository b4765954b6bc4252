import TwigTemplate.Glob.Bracket

/-!
# Reading globs

`?` stands for one byte, `*` for any number, `[…]` for a set, `{a,b}` for alternatives, and a
backslash takes the special sense of the next character away. `**` between slashes stands for any
number of directories; elsewhere it is two stars. Where stars may not cross a slash, `**` still does.

While a glob is read, its pieces are kept in a list with the last one in front, as `**` may replace
the slash before it.
-/

namespace TwigTemplate.Glob

/-- How the special characters of a glob work. -/
structure Style where
  /-- `?` and `*` match a slash. -/
  crossesSlash : Bool
  /-- A bracket that is never closed stands for itself. -/
  looseBracket : Bool

/-- A part of a glob. -/
inductive Piece where
  /-- `**` in front: nothing, or any directories with the slash after them. -/
  | leading
  /-- `**` at the end: the slash before it and anything. -/
  | trailing
  | part (p : Pattern)

namespace Piece

def slashOnly : Pattern := .byte slash

def pattern : Piece → Pattern
  | .leading => .either (.either .nothing slashOnly) (.sequence .any slashOnly)
  | .trailing => .sequence slashOnly .any
  | .part p => p

/-- `**` between slashes: a slash, or two with anything between them. -/
def between : Piece :=
  .part (.either slashOnly (.sequence slashOnly (.sequence .any slashOnly)))

def literal (c : Char) : Piece :=
  .part (.all ((utf8 c).map .byte))

/-- The piece stands for the empty text. -/
def isBlank : Piece → Bool
  | .part .nothing => true
  | _ => false

def one (style : Style) : Piece :=
  .part (.one fun b => style.crossesSlash || b != slash)

def star (style : Style) : Piece :=
  .part (.run fun b => style.crossesSlash || b != slash)

/-- The pattern of pieces that have the last one in front. -/
def join (pieces : List Piece) : Pattern :=
  .all (pieces.reverse.map pattern)

/-- Alternatives, of which blank ones do not count. -/
def alternatives (branches : List (List Piece)) : Piece :=
  match (branches.filter fun pieces => !pieces.all isBlank).map join with
  | [] => .part .nothing
  | p :: rest => .part (.oneOf p rest)

end Piece

/-- Alternatives that are still open: the pieces before them and the branches read so far. -/
structure OpenBrace where
  before : List Piece
  branches : List (List Piece)

/-- Where the reader stands. -/
structure Reading where
  /-- The pieces of the current branch, the last one in front. -/
  pieces : List Piece
  braces : List OpenBrace
  /-- The character just read. -/
  previous : Option Char
  /-- A bracket was never closed, and brackets stand for themselves from then on. -/
  bracketsPlain : Bool

namespace Reading

def start : Reading := ⟨[], [], none, false⟩

def push (s : Reading) (previous : Char) (pieces : List Piece) : Reading :=
  { s with pieces := pieces ++ s.pieces, previous := some previous }

/-- What two stars do, given what follows them: the state after them and how many more characters
they take. -/
def doubleStar (style : Style) (s : Reading) (rest : List Char) : Reading × Nat :=
  let plain := (s.push '*' [.star style, .star style], 0)
  let inBrace := !s.braces.isEmpty
  match s.pieces, rest with
  | [], [] => (s.push '*' [.leading], 0)
  | [], '/' :: _ => (s.push '/' [.leading], 1)
  | [], _ => plain
  | last :: before, rest =>
    let afterSlash := s.previous = some '/'
    let afterBrace := inBrace && (s.previous = some ',' || s.previous = some '{')
    let replace (piece : Piece) : List Piece :=
      match last with
      | .leading => .leading :: before
      | .trailing => .trailing :: before
      | .part _ => piece :: before
    if !(afterSlash || afterBrace) then plain
    else match rest with
      | [] => ({ s with pieces := replace .trailing, previous := some '*' }, 0)
      | c :: _ =>
        if c = '/' then ({ s with pieces := replace .between, previous := some '/' }, 1)
        else if inBrace && (c = ',' || c = '}') then
          ({ s with pieces := replace .trailing, previous := some '*' }, 0)
        else plain

def read (style : Style) (s : Reading) : List Char → Except Fault (List Piece)
  | [] => if s.braces.isEmpty then .ok s.pieces else .error .unclosedBrace
  | '?' :: r => read style (s.push '?' [.one style]) r
  | '*' :: '*' :: r =>
    let (next, more) := s.doubleStar style r
    read style next (r.drop more)
  | '*' :: r => read style (s.push '*' [.star style]) r
  | '{' :: r =>
    read style ⟨[], ⟨s.pieces, []⟩ :: s.braces, some '{', s.bracketsPlain⟩ r
  | '}' :: r =>
    match s.braces with
    | [] => .error .unopenedBrace
    | brace :: braces =>
      let piece := Piece.alternatives (s.pieces :: brace.branches)
      read style ⟨piece :: brace.before, braces, some '}', s.bracketsPlain⟩ r
  | ',' :: r =>
    match s.braces with
    | [] => read style (s.push ',' [.literal ',']) r
    | brace :: braces =>
      read style
        ⟨[], { brace with branches := s.pieces :: brace.branches } :: braces, some ',',
          s.bracketsPlain⟩ r
  | ['\\'] => .error .danglingEscape
  | '\\' :: c :: r => read style (s.push c [.literal c]) r
  | '[' :: r =>
    if s.bracketsPlain then read style (s.push '[' [.literal '[']) r
    else match h : Bracket.read r with
      | (_, .descending) => .error .descendingRange
      | (_, .unclosed) =>
        if style.looseBracket then
          read style { s.push '[' [.literal '['] with bracketsPlain := true } r
        else .error .unclosedBracket
      | (negated, .closed ranges rest) =>
        have := Bracket.read_length_lt h
        read style (s.push ']' [.part (Bracket.pattern negated ranges)]) rest
  | c :: r => read style (s.push c [.literal c]) r
  termination_by cs => cs.length
  decreasing_by all_goals (simp_wf; try omega)

end Reading

/-- The pattern of a glob. A glob that is `**` alone matches everything. -/
def parse (style : Style) (cs : List Char) : Except Fault Pattern :=
  (Reading.start.read style cs).map fun pieces =>
    match pieces with
    | [.leading] => .any
    | pieces => Piece.join pieces

end TwigTemplate.Glob
