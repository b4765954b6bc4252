import TwigTemplate.Proofs.Element.Places
import TwigTemplate.Proofs.Text.Respacing

/-!
# The letters from a tag on

A layout moves a tag to another line, but the letters from it on stay the same in number.  The tags
of a line are those with fewer letters from them on than from the start of the line, and more than
from the start of the next one.

* `tagsAhead`: the tags of a text, each with the number of letters from it on.
* `letters`: the number of letters of some lines.
* `newlineCount_eq_iff`: **a letter stands on the line with as many letters**.
* `filter_tagsFrom_newlineCount`: **the tags of a line, by their letters**.
-/

namespace TwigTemplate.Element

open Text (isBlank solid)

/-- The tags of a text, each with the number of letters from its `<` on. -/
def tagsAhead : List Char → List ((List Char × Kind) × Nat)
  | [] => []
  | c :: r =>
    ((step c r).tag.map fun tag => (tag, (solid (c :: r)).length)).toList ++
      tagsAhead (following c r)
termination_by cs => cs.length
decreasing_by exact Nat.lt_succ_of_le (length_following_le c r)

theorem tagsAhead_nil : tagsAhead [] = [] := by
  rw [tagsAhead]

theorem tagsAhead_cons (c : Char) (r : List Char) :
    tagsAhead (c :: r) = ((step c r).tag.map fun tag => (tag, (solid (c :: r)).length)).toList ++
      tagsAhead (following c r) := by
  rw [tagsAhead]

/-! ### Letters and lines -/

/-- The number of letters of some lines. -/
def letters (ls : List (List Char)) : Nat :=
  (solid ls.flatten).length

theorem letters_cons (l : List Char) (ls : List (List Char)) :
    letters (l :: ls) = (solid l).length + letters ls := by
  rw [letters, letters, List.flatten_cons, Text.solid_append, List.length_append]

theorem length_solid_eq (cs : List Char) : (solid cs).length = letters (cs.splitOn '\n') := by
  have hfilter := @Text.filter_intercalate _ (!isBlank ·) '\n' (by decide) (cs.splitOn '\n')
  rw [List.intercalate_splitOn] at hfilter
  rw [letters, solid, solid, hfilter]

theorem letters_drop_le (ls : List (List Char)) {i j : Nat} (h : i ≤ j) :
    letters (ls.drop j) ≤ letters (ls.drop i) := by
  obtain ⟨k, rfl⟩ := Nat.exists_eq_add_of_le h
  rw [← List.drop_drop]
  conv_rhs => rw [letters, ← List.take_append_drop k (ls.drop i), List.flatten_append,
    Text.solid_append, List.length_append]
  exact Nat.le_add_left _ _

theorem exists_drop_splitOn (front cs : List Char) : ∃ u,
    ((front ++ cs).splitOn '\n').drop (Text.newlineCount front) =
      (cs.splitOn '\n').modifyHead (u ++ ·) := by
  induction front using Text.line_induction with
  | last front hfree =>
    refine ⟨front, ?_⟩
    rw [Text.newlineCount_eq_zero.mpr hfree, List.drop_zero, Text.splitOn_append_of_not_mem hfree]
  | line l front hfree ih =>
    have hcount : Text.newlineCount (l ++ '\n' :: front) = Text.newlineCount front + 1 := by
      rw [Text.newlineCount_append, Text.newlineCount_eq_zero.mpr hfree, Text.newlineCount,
        List.count_cons_self, Text.newlineCount, Nat.zero_add]
    rw [hcount, List.append_assoc, List.cons_append,
      List.splitOn_append_cons_self_of_not_mem hfree, List.drop_succ_cons]
    exact ih

/-- **A letter stands on the line with as many letters** from its start on, and less from its end
on. -/
theorem newlineCount_eq_iff {c : Char} (hc : isBlank c = false) (front r : List Char) (i : Nat) :
    Text.newlineCount front = i ↔
      letters (((front ++ c :: r).splitOn '\n').drop (i + 1)) < (solid (c :: r)).length ∧
        (solid (c :: r)).length ≤ letters (((front ++ c :: r).splitOn '\n').drop i) := by
  obtain ⟨u, hdrop⟩ := exists_drop_splitOn front (c :: r)
  obtain ⟨l, ls, hls⟩ := List.exists_cons_of_ne_nil (List.splitOn_ne_nil '\n' r)
  have hnl : c ≠ '\n' := by
    rintro rfl
    exact absurd hc (by decide)
  have hsplit : (c :: r).splitOn '\n' = (c :: l) :: ls := by
    rw [List.splitOn_cons_eq_if_modifyHead, if_neg (by simpa using hnl), hls, List.modifyHead_cons]
  have hsolid : (solid (c :: r)).length = (solid l).length + 1 + letters ls := by
    rw [length_solid_eq, hsplit, letters_cons, Text.solid_cons_of_ink hc, List.length_cons]
  rw [hsplit, List.modifyHead_cons] at hdrop
  generalize (front ++ c :: r).splitOn '\n' = parts at hdrop ⊢
  generalize Text.newlineCount front = j at hdrop ⊢
  have hfrom : letters (parts.drop j) = (solid u).length + ((solid l).length + 1 + letters ls) := by
    rw [hdrop, letters_cons, Text.solid_append, Text.solid_cons_of_ink hc, List.length_append,
      List.length_cons, Nat.add_assoc]
  have hnext : letters (parts.drop (j + 1)) = letters ls := by
    rw [← List.drop_drop, hdrop, List.drop_one, List.tail_cons]
  rcases Nat.lt_trichotomy j i with hlt | rfl | hlt
  · have hle : letters (parts.drop i) ≤ letters (parts.drop (j + 1)) := letters_drop_le parts hlt
    omega
  · omega
  · have hle : letters (parts.drop j) ≤ letters (parts.drop (i + 1)) := letters_drop_le parts hlt
    omega

theorem eq_of_tag {c : Char} {r : List Char} {tag : List Char × Kind}
    (h : (step c r).tag = some tag) : c = '<' := by
  by_contra hc
  rw [step_of_ne hc] at h
  split at h <;> exact absurd h (by simp [Step.skip])

theorem filter_tagAt_newlineCount (front : List Char) (c : Char) (r : List Char) (i : Nat) :
    ((tagAt (Text.newlineCount front) c r).filter (·.line = i)).map delta =
      ((((step c r).tag.map fun tag => (tag, (solid (c :: r)).length)).toList).filter fun t =>
        letters (((front ++ c :: r).splitOn '\n').drop (i + 1)) < t.2 ∧
          t.2 ≤ letters (((front ++ c :: r).splitOn '\n').drop i)).map (·.1.2.delta) := by
  rw [tagAt]
  cases htag : (step c r).tag with
  | none => rfl
  | some tag =>
    obtain rfl := eq_of_tag htag
    have hiff := newlineCount_eq_iff (by decide : isBlank '<' = false) front r i
    rw [Option.map_some, Option.toList_some, Option.map_some, Option.toList_some]
    by_cases hi : Text.newlineCount front = i
    · rw [List.filter_cons_of_pos (by simpa using hi),
        List.filter_cons_of_pos (by rw [decide_eq_true_eq]; exact hiff.mp hi)]
      rfl
    · rw [List.filter_cons_of_neg (by simpa using hi),
        List.filter_cons_of_neg (by rw [decide_eq_true_eq]; exact mt hiff.mpr hi)]
      rfl

/-- **The tags of a line, by their letters.** -/
theorem filter_tagsFrom_newlineCount (front cs : List Char) (i : Nat) :
    ((tagsFrom (Text.newlineCount front) cs).filter (·.line = i)).map delta =
      ((tagsAhead cs).filter fun t =>
        letters (((front ++ cs).splitOn '\n').drop (i + 1)) < t.2 ∧
          t.2 ≤ letters (((front ++ cs).splitOn '\n').drop i)).map (·.1.2.delta) := by
  generalize hline : Text.newlineCount front = line
  induction line, cs using scan_induction generalizing front with
  | nil line =>
    rw [tagsFrom_nil, tagsAhead_nil]
    rfl
  | cons line c r ih =>
    subst hline
    have hnext : Text.newlineCount (front ++ c :: r.take (step c r).length) =
        nextLine (Text.newlineCount front) c r := Text.newlineCount_append _ _
    have hrest := ih _ hnext
    have hwhole : front ++ c :: r.take (step c r).length ++ following c r = front ++ c :: r := by
      rw [List.append_assoc, List.cons_append, following, List.take_append_drop]
    rw [hwhole] at hrest
    rw [tagsFrom_cons, tagsAhead_cons, List.filter_append, List.filter_append, List.map_append,
      List.map_append, hrest, filter_tagAt_newlineCount]

end TwigTemplate.Element
