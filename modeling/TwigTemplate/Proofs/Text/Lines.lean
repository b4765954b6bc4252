import TwigTemplate.Proofs.Text.Ink

/-!
# The lines of a file

A file's lines are the parts of its text between newlines, but for carriage
returns at their ends and an empty part after the last newline.  Neither is ink.

* `linesOfParts_append`: the lines, read off the parts.
* `line_induction`: a text is a line, or a line with a text after its newline.
* `lines_append_newline`: the lines of a text, one after the other.
* `newlineCount_add_length_lines`: the number of lines against newlines.
* `inkOf_map_lines`: **lines and parts have the same ink**.
-/

namespace TwigTemplate.Text

theorem trim_dropReturn (cs : List Char) :
    trimBy isBlank (dropReturn cs) = trimBy isBlank cs := by
  rw [dropReturn]
  split
  · next hlast =>
    have hne : cs ≠ [] := by
      rintro rfl
      simp at hlast
    have hret : cs.getLast hne = '\r' := by
      rw [List.getLast?_eq_some_getLast hne] at hlast
      exact Option.some.inj hlast
    conv_rhs => rw [← List.dropLast_append_getLast hne, hret]
    exact (trimBy_append_right _ (List.forall_mem_singleton.mpr (by decide))).symm
  · rfl

/-- The lines of a text are its parts between newlines; of the last part only if
it holds anything. -/
theorem linesOfParts_append (ls : List (List Char)) (last : List Char) :
    linesOfParts (ls ++ [last]) =
      ls.map dropReturn ++ if last.isEmpty then [] else [last] := by
  induction ls with
  | nil => rfl
  | cons l ls ih =>
    cases ls with
    | nil => rfl
    | cons m ls =>
      rw [List.cons_append, List.cons_append, linesOfParts, ← List.cons_append,
        ih]
      rfl

/-! ### Line by line -/

/-- What is said of every text may be shown for a single line, and for a line put in
front of a text. -/
@[elab_as_elim]
theorem line_induction {motive : List Char → Prop} (last : ∀ cs, '\n' ∉ cs → motive cs)
    (line : ∀ l cs, '\n' ∉ l → motive cs → motive (l ++ '\n' :: cs)) (cs : List Char) :
    motive cs := by
  induction hlen : cs.length using Nat.strong_induction_on generalizing cs with
  | _ n ih =>
    subst hlen
    by_cases hnl : '\n' ∈ cs
    · obtain ⟨l, rest, rfl, hl⟩ := List.eq_append_cons_of_mem hnl
      refine line l rest hl (ih rest.length ?_ rest rfl)
      rw [List.length_append, List.length_cons]
      omega
    · exact last cs hnl

theorem lines_of_not_mem {cs : List Char} (h : '\n' ∉ cs) :
    lines cs = if cs.isEmpty then [] else [cs] := by
  rw [lines, splitAt_eq_splitOn, List.splitOn_eq_singleton h, linesOfParts]

/-- **A line ends at its newline**, and the other lines are those of the text after it. -/
theorem lines_append_newline {l : List Char} (h : '\n' ∉ l) (cs : List Char) :
    lines (l ++ '\n' :: cs) = dropReturn l :: lines cs := by
  rw [lines, lines, splitAt_eq_splitOn, splitAt_eq_splitOn,
    List.splitOn_append_cons_self_of_not_mem h]
  obtain ⟨part, parts, hparts⟩ := List.exists_cons_of_ne_nil (List.splitOn_ne_nil '\n' cs)
  rw [hparts, linesOfParts]

theorem lines_length_pos {cs : List Char} (h : cs ≠ []) : 0 < (lines cs).length := by
  induction cs using line_induction with
  | last cs hfree =>
    rw [lines_of_not_mem hfree, if_neg (by simpa using h)]
    exact Nat.one_pos
  | line l cs hfree ih =>
    rw [lines_append_newline hfree]
    exact Nat.succ_pos _

theorem lines_length_le_append {l : List Char} (h : '\n' ∉ l) (cs : List Char) :
    (lines cs).length ≤ (lines (l ++ cs)).length := by
  induction cs using line_induction with
  | last cs hfree =>
    by_cases hcs : cs = []
    · subst hcs
      exact Nat.zero_le _
    · rw [lines_of_not_mem hfree, if_neg (by simpa using hcs)]
      exact lines_length_pos fun hnil => hcs (List.append_eq_nil_iff.mp hnil).2
  | line m cs hfree ih =>
    have hmem : '\n' ∉ l ++ m := by simpa using ⟨h, hfree⟩
    rw [lines_append_newline hfree, ← List.append_assoc, lines_append_newline hmem]
    exact Nat.le_refl _

theorem newlineCount_add_length_lines (cs ds : List Char) :
    newlineCount cs + (lines ds).length ≤ (lines (cs ++ ds)).length := by
  induction cs using line_induction with
  | last cs hfree =>
    rw [newlineCount_eq_zero.mpr hfree, Nat.zero_add]
    exact lines_length_le_append hfree ds
  | line l cs hfree ih =>
    rw [List.append_assoc, List.cons_append, lines_append_newline hfree, newlineCount_append,
      newlineCount_eq_zero.mpr hfree, newlineCount, List.count_cons_self, ← newlineCount,
      List.length_cons]
    omega

/-! ### Lines and parts -/

theorem eq_dropReturn (cs : List Char) : cs = dropReturn cs ∨ cs = dropReturn cs ++ ['\r'] := by
  rw [dropReturn]
  split
  · next hlast =>
    right
    have hne : cs ≠ [] := by
      rintro rfl
      simp at hlast
    rw [List.getLast?_eq_some_getLast hne] at hlast
    conv_lhs => rw [← List.dropLast_append_getLast hne, Option.some.inj hlast]
  · exact Or.inl rfl

theorem mem_of_mem_dropReturn {cs : List Char} {c : Char} (h : c ∈ dropReturn cs) : c ∈ cs := by
  rcases eq_dropReturn cs with hcs | hcs
  · rwa [hcs]
  · rw [hcs]
    exact List.mem_append_left _ h

theorem exists_parts (cs : List Char) :
    ∃ ls last, cs.splitOn '\n' = ls ++ [last] ∧
      lines cs = ls.map dropReturn ++ if last.isEmpty then [] else [last] := by
  obtain hnil | ⟨ls, last, hparts⟩ := (cs.splitOn '\n').eq_nil_or_concat
  · exact absurd hnil (List.splitOn_ne_nil _ _)
  · rw [List.concat_eq_append] at hparts
    refine ⟨ls, last, hparts, ?_⟩
    rw [lines, splitAt_eq_splitOn, hparts, linesOfParts_append]

theorem exists_mem_splitOn_of_mem_lines {cs l : List Char} (h : l ∈ lines cs) :
    ∃ part ∈ cs.splitOn '\n', part = l ∨ part = l ++ ['\r'] := by
  obtain ⟨ls, last, hparts, hlines⟩ := exists_parts cs
  rw [hlines] at h
  rw [hparts]
  rcases List.mem_append.mp h with h | h
  · obtain ⟨part, hpart, rfl⟩ := List.mem_map.mp h
    exact ⟨part, List.mem_append_left _ hpart, eq_dropReturn part⟩
  · split at h
    · simp at h
    · exact ⟨last, by simp, Or.inl (List.mem_singleton.mp h).symm⟩

theorem newline_not_mem_of_mem_lines {cs l : List Char} (h : l ∈ lines cs) : '\n' ∉ l := by
  obtain ⟨part, hpart, hl⟩ := exists_mem_splitOn_of_mem_lines h
  have hfree := not_mem_of_mem_splitOn hpart
  rcases hl with rfl | rfl
  · exact hfree
  · exact fun hmem => hfree (List.mem_append_left _ hmem)

/-- A part is empty, or a line, or a line with its carriage return. -/
theorem mem_lines_of_mem_splitOn {cs part : List Char} (h : part ∈ cs.splitOn '\n') :
    part = [] ∨ part ∈ lines cs ∨
      dropReturn part ∈ lines cs ∧ part = dropReturn part ++ ['\r'] := by
  obtain ⟨ls, last, hparts, hlines⟩ := exists_parts cs
  rw [hparts] at h
  rw [hlines]
  rcases List.mem_append.mp h with h | h
  · have hmem := List.mem_append_left (if last.isEmpty then [] else [last])
      (List.mem_map_of_mem (f := dropReturn) h)
    rcases eq_dropReturn part with he | he
    · rw [← he] at hmem
      exact Or.inr (Or.inl hmem)
    · exact Or.inr (Or.inr ⟨hmem, he⟩)
  · obtain rfl := List.mem_singleton.mp h
    by_cases he : part = []
    · exact Or.inl he
    · rw [if_neg (by simpa using he)]
      exact Or.inr (Or.inl (by simp))

/-- **Lines and parts have the same ink**, whatever is made of them. -/
theorem inkOf_map_lines {α : Type} {p : α → Bool} {τ : List Char → List α} {cs : List Char}
    (hτ : ∀ l, dropReturn l ∈ lines cs → trimBy p (τ (dropReturn l)) = trimBy p (τ l))
    (hnil : τ [] = []) : inkOf p ((lines cs).map τ) = inkOf p ((cs.splitOn '\n').map τ) := by
  obtain ⟨ls, last, hparts, hlines⟩ := exists_parts cs
  rw [hlines] at hτ
  have hfront : inkOf p ((ls.map dropReturn).map τ) = inkOf p (ls.map τ) := by
    apply inkOf_congr
    rw [List.map_map, List.map_map, List.map_map]
    exact List.map_congr_left fun l hl =>
      hτ l (List.mem_append_left _ (List.mem_map_of_mem hl))
  rw [hlines, hparts, List.map_append, List.map_append, inkOf_append, inkOf_append, hfront]
  by_cases he : last = []
  · rw [he, List.map_singleton, hnil, inkOf_cons_of_blank (by simp)]
    rfl
  · rw [if_neg (by simpa using he)]

end TwigTemplate.Text
