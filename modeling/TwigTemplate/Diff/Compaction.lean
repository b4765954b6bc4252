import TwigTemplate.Diff.Script

/-!
# Compacting a script

An insertion next to kept lines may often be moved over them without changing what the script does:
it is moved up and then down as far as it goes. Deletions are not moved over kept lines. Insertions
and deletions change places with each other, and those of one sort that meet are joined: first the
deletions go their way, then the insertions.

A step that was passed keeps the place that it was found at. So the place of a deletion in the new
text, where it takes no lines, may be off by the length of an insertion.
-/

namespace TwigTemplate.Diff

/-- The lines of both texts. -/
structure Sides where
  old : List Line
  new : List Line

namespace Sides

/-- The lines that a step keeps. -/
def kept (s : Sides) (e : Edit) : List Line :=
  (s.old.drop e.old).take e.oldLength

/-- The lines that a step inserts. -/
def inserted (s : Sides) (e : Edit) : List Line :=
  (s.new.drop e.new).take e.newLength

end Sides

namespace Edit

def moveUp (e : Edit) (n : Nat) : Edit := ⟨e.act, e.old - n, e.new - n, e.length⟩

def moveDown (e : Edit) (n : Nat) : Edit := ⟨e.act, e.old + n, e.new + n, e.length⟩

def lengthen (e : Edit) (n : Nat) : Edit := ⟨e.act, e.old, e.new, e.length + n⟩

def shorten (e : Edit) (n : Nat) : Edit := ⟨e.act, e.old, e.new, e.length - n⟩

end Edit

/-- A place in a script: the steps before it, read backwards, a deletion or insertion, and the steps
after it. -/
structure Place where
  before : List Edit
  here : Edit
  after : List Edit

/-- The steps after an insertion that is moved up over the last `n` lines kept by the step before
it. -/
def keepBelow (prev here : Edit) (n : Nat) : List Edit → List Edit
  | e :: more => if e.act = .keep then (e.moveUp n).lengthen n :: more else kept :: e :: more
  | [] => [kept]
where
  kept : Edit := ⟨.keep, prev.old + prev.length - n, here.new + here.length - n, n⟩

/-- The steps before an insertion that is moved down over the first `n` lines kept by the step after
it. -/
def keepAbove (here next : Edit) (n : Nat) : List Edit → List Edit
  | e :: more => if e.act = .keep then e.lengthen n :: more else kept :: e :: more
  | [] => [kept]
where
  kept : Edit := ⟨.keep, next.old, here.new, n⟩

/-- Room for moving over some steps. -/
def room (steps : List Edit) : Nat :=
  steps.foldr (fun e n => e.length + 1 + n) 0

/-- Move a deletion or insertion up as far as it goes. -/
def slideUp (s : Sides) : (fuel : Nat) → Place → Place
  | 0, p => p
  | _ + 1, ⟨[], here, after⟩ => ⟨[], here, after⟩
  | fuel + 1, ⟨prev :: before, here, after⟩ =>
    if prev.act = .keep then
      let n := commonLength (s.kept prev).reverse (s.inserted here).reverse
      let rest := if prev.length = n then before else prev.shorten n :: before
      if 0 < n then slideUp s fuel ⟨rest, here.moveUp n, keepBelow prev here n after⟩
      else if prev.length = 0 then slideUp s fuel ⟨before, here, after⟩
      else ⟨prev :: before, here, after⟩
    else if prev.act = here.act then
      slideUp s fuel ⟨before, prev.lengthen here.length, after⟩
    else slideUp s fuel ⟨before, here, prev :: after⟩

/-- Move a deletion or insertion down as far as it goes. -/
def slideDown (s : Sides) : (fuel : Nat) → Place → Place
  | 0, p => p
  | _ + 1, ⟨before, here, []⟩ => ⟨before, here, []⟩
  | fuel + 1, ⟨before, here, next :: after⟩ =>
    if next.act = .keep then
      let n := commonLength (s.kept next) (s.inserted here)
      let rest := if next.length = n then after else (next.moveDown n).shorten n :: after
      if 0 < n then slideDown s fuel ⟨keepAbove here next n before, here.moveDown n, rest⟩
      else if next.length = 0 then slideDown s fuel ⟨before, here, after⟩
      else ⟨before, here, next :: after⟩
    else if next.act = here.act then
      slideDown s fuel ⟨before, here.lengthen next.length, after⟩
    else slideDown s fuel ⟨next :: before, here, after⟩

/-- Move every change of one sort, from the first step to the last. -/
def compactAct (s : Sides) (act : Act) : (fuel : Nat) → (before after : List Edit) → List Edit
  | 0, before, after => before.reverse ++ after
  | _ + 1, before, [] => before.reverse
  | fuel + 1, before, here :: after =>
    if here.act = act then
      let p := slideUp s (room before) ⟨before, here, after⟩
      let p := slideDown s (room p.after) p
      compactAct s act fuel (p.here :: p.before) p.after
    else compactAct s act fuel (here :: before) after

/-- How often a step may be looked at: all of them again after every two that are joined. -/
def looks (steps : List Edit) : Nat :=
  (room steps + 1) * (room steps + 1)

/-- Compact a script for the given texts. -/
def compact (s : Sides) (steps : List Edit) : List Edit :=
  let deleted := compactAct s .delete (looks steps) [] steps
  compactAct s .insert (looks deleted) [] deleted

end TwigTemplate.Diff
