import TwigTemplate.Diff.MiddleSnake

/-!
# Edit scripts

A script turns the lines of one text into those of another, in steps that keep, delete or insert
lines that follow each other.
-/

namespace TwigTemplate.Diff

inductive Act where
  | keep
  | delete
  | insert
  deriving DecidableEq, Repr

/-- A step with the places in both texts where it starts, counted in lines from zero. -/
structure Edit where
  act : Act
  old : Nat
  new : Nat
  length : Nat
  deriving DecidableEq, Repr

namespace Edit

/-- How many lines of the old text the step takes. -/
def oldLength (e : Edit) : Nat :=
  if e.act = .insert then 0 else e.length

/-- How many lines of the new text the step gives. -/
def newLength (e : Edit) : Nat :=
  if e.act = .delete then 0 else e.length

def ofLength (act : Act) (old new length : Nat) : List Edit :=
  if length = 0 then [] else [⟨act, old, new, length⟩]

end Edit

/-- A script for two lists of lines that start at the given places. What they share at either end is
kept; the rest is cut in two where a shortest script passes, or replaced as a whole. -/
def scriptFrom : (fuel : Nat) → (old new : Nat) → List Line → List Line → List Edit
  | 0, old, new, a, b => Edit.ofLength .delete old new a.length ++
      Edit.ofLength .insert old new b.length
  | fuel + 1, old, new, a, b =>
    let front := commonLength a b
    let a := a.drop front
    let b := b.drop front
    let back := commonLength a.reverse b.reverse
    let a := a.take (a.length - back)
    let b := b.take (b.length - back)
    let inner :=
      if a.isEmpty || b.isEmpty then
        Edit.ofLength .delete (old + front) (new + front) a.length ++
          Edit.ofLength .insert (old + front) (new + front) b.length
      else match middle? a b with
        | some (x, y) =>
          scriptFrom fuel (old + front) (new + front) (a.take x) (b.take y) ++
            scriptFrom fuel (old + front + x) (new + front + y) (a.drop x) (b.drop y)
        | none =>
          [⟨.delete, old + front, new + front, a.length⟩,
            ⟨.insert, old + front, new + front, b.length⟩]
    Edit.ofLength .keep old new front ++ inner ++
      Edit.ofLength .keep (old + front + a.length) (new + front + b.length) back

def script (a b : List Line) : List Edit :=
  scriptFrom (a.length + b.length + 1) 0 0 a b

end TwigTemplate.Diff
