import TwigTemplate.Point
import TwigTemplate.Text.Lines

/-!
# Moving points

A point that is moved past a text counts its newlines and, as long as the line goes on, its
characters.  Moving is additive.

* `advance_append`: moving past two texts in turn.
* `advance_line`, `advance_column`: what the counts are.
-/

namespace TwigTemplate.Point

theorem advance_append (p : Point) (cs ds : List Char) :
    p.advance (cs ++ ds) = (p.advance cs).advance ds := by
  rw [advance, List.foldl_append]
  rfl

theorem advance_cons (p : Point) (c : Char) (cs : List Char) :
    p.advance (c :: cs) = (p.step c).advance cs := rfl

/-- **Lines are counted by newlines.** -/
theorem advance_line (p : Point) (cs : List Char) :
    (p.advance cs).line = p.line + Text.newlineCount cs := by
  induction cs generalizing p with
  | nil => rfl
  | cons c cs ih =>
    rw [advance_cons, ih, Text.newlineCount, Text.newlineCount, step]
    by_cases hc : c = '\n'
    · rw [if_pos hc, hc, List.count_cons_self]
      dsimp only
      omega
    · rw [if_neg hc, List.count_cons_of_ne hc]

theorem advance_column {p : Point} {cs : List Char} (h : '\n' ∉ cs) :
    (p.advance cs).column = p.column + cs.length := by
  induction cs generalizing p with
  | nil => rfl
  | cons c cs ih =>
    rw [List.mem_cons, not_or] at h
    rw [advance_cons, ih h.2, step, if_neg (Ne.symm h.1), List.length_cons]
    dsimp only
    omega

end TwigTemplate.Point
