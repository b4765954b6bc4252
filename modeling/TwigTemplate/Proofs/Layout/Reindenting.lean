import TwigTemplate.Layout.Reindent
import TwigTemplate.Proofs.Layout.Printing

/-!
# What indenting by block depth keeps

Whatever the regions of a document are, a line is written as it stands, or empty
when it is blank, or trimmed and indented.  So the lines keep their ink.

* `trim_reindentLines`: every line is the same up to blanks at its ends.
* `inkBy_reindent`: indenting keeps the ink of the document.
-/

namespace TwigTemplate.Layout

open Text (isBlank trimBy inkBy inkOf)

variable {unit : List Char} {keepIndent : Bool}

theorem indent_eq (unit : List Char) (depth : Nat) (cs : List Char) :
    indent unit depth cs = indentBy unit depth cs := rfl

theorem trim_trimEnd (cs : List Char) : trimBy isBlank (Text.trimEnd cs) = trimBy isBlank cs := by
  obtain ⟨w, hw, hall⟩ := Text.exists_eq_rdropWhile_append isBlank cs
  conv_rhs => rw [hw]
  rw [Text.trimBy_append_right _ hall, Text.trimEnd_eq_rdropWhile]

/-- What a line that begins outside the regions becomes. -/
def writtenLine (unit : List Char) (keepIndent : Bool) (level : Nat) (cs : List Char) :
    List Char :=
  if (Text.trim cs).isEmpty then []
  else indent unit level (if keepIndent then Text.trimEnd cs else Text.trim cs)

theorem trim_writtenLine (hunit : ∀ c ∈ unit, isBlank c = true) (level : Nat) (cs : List Char) :
    trimBy isBlank (writtenLine unit keepIndent level cs) = trimBy isBlank cs := by
  rw [writtenLine]
  split
  · next hblank =>
    rw [List.isEmpty_iff, Text.trim_eq_trimBy] at hblank
    rw [hblank]
    rfl
  · rw [indent_eq, trimBy_indentBy hunit]
    split
    · exact trim_trimEnd cs
    · rw [Text.trim_eq_trimBy, Text.trimBy_trimBy]

theorem reindentLines_cons_of_continues {regions : List Region} {line depth : Nat}
    (h : continuesRegion regions line = true) (cs : List Char) (rest : List (List Char)) :
    reindentLines regions unit keepIndent line depth (cs :: rest) =
      cs :: reindentLines regions unit keepIndent (line + 1) depth rest := by
  rw [reindentLines, if_pos h]

theorem reindentLines_cons_of_starts {regions : List Region} {line depth : Nat}
    (h : ¬ continuesRegion regions line = true) (cs : List Char) (rest : List (List Char)) :
    reindentLines regions unit keepIndent line depth (cs :: rest) =
      writtenLine unit keepIndent (lineDepth depth (deltasOn regions line)).1 cs ::
        reindentLines regions unit keepIndent (line + 1)
          (lineDepth depth (deltasOn regions line)).2 rest := by
  rw [reindentLines, if_neg h]
  rfl

/-- **Every line is the same up to blanks at its ends.** -/
theorem trim_reindentLines (hunit : ∀ c ∈ unit, isBlank c = true) (regions : List Region)
    (line depth : Nat) (ls : List (List Char)) :
    (reindentLines regions unit keepIndent line depth ls).map (trimBy isBlank) =
      ls.map (trimBy isBlank) := by
  induction ls generalizing line depth with
  | nil => rfl
  | cons cs rest ih =>
    by_cases h : continuesRegion regions line = true
    · rw [reindentLines_cons_of_continues h, List.map_cons, ih, List.map_cons]
    · rw [reindentLines_cons_of_starts h, List.map_cons, trim_writtenLine hunit, ih, List.map_cons]

theorem mem_of_mem_writtenLine {level : Nat} {cs : List Char} {c : Char}
    (h : c ∈ writtenLine unit keepIndent level cs) : c ∈ unit ∨ c ∈ cs := by
  rw [writtenLine] at h
  split at h
  · simp at h
  rw [indent_eq] at h
  rcases mem_indentBy h with h | h
  · exact Or.inl h
  · right
    split at h
    · exact (List.rdropWhile_prefix isBlank cs).subset h
    · exact Text.mem_of_mem_trimBy h

theorem newline_not_mem_reindentLines (hfree : '\n' ∉ unit) {regions : List Region}
    {line depth : Nat} {ls : List (List Char)} (hls : ∀ l ∈ ls, '\n' ∉ l) :
    ∀ l ∈ reindentLines regions unit keepIndent line depth ls, '\n' ∉ l := by
  induction ls generalizing line depth with
  | nil => simp [reindentLines]
  | cons cs rest ih =>
    have hrest := fun l hl => hls l (List.mem_cons_of_mem _ hl)
    intro l hl
    by_cases h : continuesRegion regions line = true
    · rw [reindentLines_cons_of_continues h] at hl
      rcases List.mem_cons.mp hl with rfl | hl
      · exact hls l List.mem_cons_self
      · exact ih hrest l hl
    · rw [reindentLines_cons_of_starts h] at hl
      rcases List.mem_cons.mp hl with rfl | hl
      · intro hc
        rcases mem_of_mem_writtenLine hc with hc | hc
        · exact hfree hc
        · exact hls cs List.mem_cons_self hc
      · exact ih hrest l hl

/-- **Indenting keeps the ink of a document.** -/
theorem inkBy_reindent (hunit : ∀ c ∈ unit, isBlank c = true) (hfree : '\n' ∉ unit)
    (cs : List Char) :
    inkBy isBlank '\n' (reindent unit keepIndent cs) = inkBy isBlank '\n' cs := by
  rw [reindent, Text.splitAt_eq_splitOn, Text.joinWith, Text.inkBy_intercalate]
  · exact Text.inkOf_congr (trim_reindentLines hunit _ 1 0 _)
  · exact newline_not_mem_reindentLines hfree fun l hl => Text.not_mem_of_mem_splitOn hl

end TwigTemplate.Layout
