import TwigTemplate.Region.Extent

/-!
# Cutting a document into regions

`pieces` cuts a text into labelled pieces from left to right; `locate` gives each piece its points.
A document is scanned as a whole, so that a region may span lines, or line by line.

An opener without a closer in reach makes a piece that stops before the next newline, from where the
scan goes on.
-/

namespace TwigTemplate.Region

/-- A labelled stretch of text without a place in the document. -/
structure Piece where
  kind : Kind
  raw : List Char
  deriving DecidableEq, Repr

/-- Put a character of plain text in front, joining it with plain text that follows. -/
def Piece.addText (c : Char) : List Piece → List Piece
  | ⟨.text, raw⟩ :: more => ⟨.text, c :: raw⟩ :: more
  | more => ⟨.text, [c]⟩ :: more

theorem length_dropWhile_le (p : Char → Bool) (cs : List Char) :
    (cs.dropWhile p).length ≤ cs.length :=
  (List.dropWhile_sublist p).length_le

/-- The pieces of a text, in order. -/
def pieces (reach : Reach) : List Char → List Piece
  | [] => []
  | c :: r =>
    match Form.opening? (c :: r) with
    | none => Piece.addText c (pieces reach r)
    | some form =>
      match lengthAfterOpener? reach form (r.drop 1) with
      | some n => ⟨.template form, c :: r.take (n + 1)⟩ :: pieces reach (r.drop (n + 1))
      | none =>
        ⟨.unterminated form, c :: r.takeWhile (· ≠ '\n')⟩ ::
          pieces reach (r.dropWhile (· ≠ '\n'))
termination_by cs => cs.length
decreasing_by
  · simp
  · simp only [List.length_drop, List.length_cons]; omega
  · exact Nat.lt_succ_of_le (length_dropWhile_le _ r)

/-- The pieces as regions, the first one at `start` and each later one where the one before it
stops. -/
def locate (start : Point) : List Piece → List Region
  | [] => []
  | p :: ps =>
    let stop := start.advance p.raw
    ⟨p.kind, start, stop, p.raw⟩ :: locate stop ps

/-- The regions of one line with the given line number. -/
def ofLine (cs : List Char) (line : Nat) : List Region :=
  locate ⟨line, 1, 0⟩ (pieces .line cs)

/-- The regions of consecutive lines, each scanned by itself, from the line number `first` on. -/
def ofLinesFrom (first : Nat) : List (List Char) → List (List Region)
  | [] => []
  | cs :: rest => ofLine cs first :: ofLinesFrom (first + 1) rest

/-- The regions of each line of a text. -/
def ofLines (cs : List Char) : List (List Region) :=
  ofLinesFrom 1 (Text.lines cs)

/-- The regions of a whole document. -/
def ofDocument (cs : List Char) : List Region :=
  locate .origin (pieces .document cs)

end TwigTemplate.Region
