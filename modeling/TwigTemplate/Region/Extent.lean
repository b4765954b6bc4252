import TwigTemplate.Region.Basic

/-!
# Where a region ends

A comment ends at the first `#` followed by `}`. In an output or a statement a string literal hides
what it holds, and the closers of both forms are read as pairs, so that a pair which closes the other
form takes its brace along. All functions return a number of characters, counted from where they
start.

A literal runs from a quote to the next equal quote of the same line that no backslash escapes; a
quote without such a partner is an ordinary character.
-/

namespace TwigTemplate.Region

/-- How far a region may reach. -/
inductive Reach where
  /-- It closes on the line it opens on. -/
  | line
  /-- It closes anywhere in the document. -/
  | document
  deriving DecidableEq, Repr

/-- A newline ends the search for a closer. -/
def Reach.stopsAt (reach : Reach) (c : Char) : Bool :=
  reach = .line && c = '\n'

/-- The length of the rest of a literal that `quote` opened, the closing quote included. -/
def literalRest? (quote : Char) : List Char → Option Nat
  | [] => none
  | ['\\'] => none
  | '\\' :: c :: r => if c = '\n' then none else (literalRest? quote r).map (· + 2)
  | c :: r =>
    if c = '\n' then none
    else if c = quote then some 1
    else (literalRest? quote r).map (· + 1)

def isQuote (c : Char) : Bool :=
  c = '"' || c = '\''

/-- The length of the literal at the start of the text. -/
def literal? : List Char → Option Nat
  | [] => none
  | c :: r => if isQuote c then (literalRest? c r).map (· + 1) else none

/-- The form, output or statement, whose closer starts the text. -/
def closing? : List Char → Option Form
  | '}' :: '}' :: _ => some .output
  | '%' :: '}' :: _ => some .statement
  | _ => none

/-- The length up to and including the closer of `form`, read as an expression. The first argument
is the number of characters still to be passed over. -/
def expressionLength? (reach : Reach) (form : Form) : Nat → List Char → Option Nat
  | _, [] => none
  | skip + 1, _ :: r => (expressionLength? reach form skip r).map (· + 1)
  | 0, c :: r =>
    match literal? (c :: r) with
    | some n => (expressionLength? reach form (n - 1) r).map (· + 1)
    | none =>
      match closing? (c :: r) with
      | some other =>
        if other = form then some 2 else (expressionLength? reach form 1 r).map (· + 1)
      | none =>
        if reach.stopsAt c then none
        else (expressionLength? reach form 0 r).map (· + 1)

/-- The length up to and including the closer of a comment. -/
def commentLength? (reach : Reach) : List Char → Option Nat
  | [] => none
  | '#' :: '}' :: _ => some 2
  | c :: r => if reach.stopsAt c then none else (commentLength? reach r).map (· + 1)

/-- The length of a region's text after its opener, if its closer is in reach. -/
def lengthAfterOpener? (reach : Reach) (form : Form) (cs : List Char) : Option Nat :=
  match form with
  | .comment => commentLength? reach cs
  | _ => expressionLength? reach form 0 cs

end TwigTemplate.Region
