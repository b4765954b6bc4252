import TwigTemplate.Proofs.Layout.Reindenting
import TwigTemplate.Proofs.Layout.Walk
import TwigTemplate.Proofs.Nesting
import TwigTemplate.Proofs.Ordered
import TwigTemplate.Proofs.Region.Places

/-!
# Which statements count for the indentation

The lines of a document are indented by a walk over the nesting events of its statements.  A
line that begins inside a region is passed over, and the statements that start on it with it:
they are missing from the walk.

* `lowestOn`: the depth of a line by the walk over the statements of some regions.
* `writtenLines_eq`: **every line is indented by the walk over the statements that start on
  lines that begin outside the regions**.
* `indents_all_iff`: when the walk over all statements gives the same.
-/

namespace TwigTemplate.Layout

/-! ### Depths by lines -/

/-- The terminated regions of a document. -/
def templateRegions (cs : List Char) : List Region :=
  (Region.ofDocument cs).filter (·.kind.isTemplate)

/-- The depth changes made by the statements that start before a line, counted from one. -/
def deltasBefore (regions : List Region) (line : Nat) : List Int :=
  (Nesting.events (regions.filter (·.line < line))).flatMap eventDeltas

/-- The lowest depth on a line: the statements before it are walked through from depth zero,
then those that start on it. -/
def lowestOn (regions : List Region) (line : Nat) : Nat :=
  lowest (walk 0 (deltasBefore regions line)) (deltasOn regions line)

/-- The regions that start on a line which begins outside all regions. -/
def counted (regions : List Region) : List Region :=
  regions.filter fun r => !continuesRegion regions r.line

/-- The lines of a document as they are written. -/
def writtenLines (unit : List Char) (keepIndent : Bool) (cs : List Char) : List (List Char) :=
  reindentLines (templateRegions cs) unit keepIndent 1 0 (Text.splitAt '\n' cs)

variable {unit : List Char} {keepIndent : Bool}

theorem reindent_eq_joinWith (unit : List Char) (keepIndent : Bool) (cs : List Char) :
    reindent unit keepIndent cs = Text.joinWith ['\n'] (writtenLines unit keepIndent cs) := rfl

theorem pairwise_line_locate (start : Point) (ps : List Region.Piece) :
    (Region.locate start ps).Pairwise (fun r s => r.line ≤ s.line) ∧
      ∀ r ∈ Region.locate start ps, start.line ≤ r.line := by
  induction ps generalizing start with
  | nil => simp [Region.locate]
  | cons p ps ih =>
    obtain ⟨hpairs, hfrom⟩ := ih (start.advance p.raw)
    have hline := Point.advance_line start p.raw
    rw [Region.locate, List.pairwise_cons, List.forall_mem_cons]
    refine ⟨⟨fun r hr => ?_, hpairs⟩, Nat.le_refl _, fun r hr => ?_⟩
    · have := hfrom r hr
      show start.line ≤ r.line
      omega
    · have := hfrom r hr
      omega

theorem pairwise_line_ofDocument (cs : List Char) :
    (Region.ofDocument cs).Pairwise fun r s => r.line ≤ s.line :=
  (pairwise_line_locate _ _).1

section Sorted

variable {regions : List Region}

theorem deltasBefore_succ (h : regions.Pairwise fun r s => r.line ≤ s.line) (line : Nat) :
    deltasBefore regions (line + 1) = deltasBefore regions line ++ deltasOn regions line := by
  rw [deltasBefore, Ordered.filter_lt_succ h, Nesting.events, List.filterMap_append,
    List.flatMap_append]
  rfl

theorem filter_counted (line : Nat) :
    (counted regions).filter (·.line = line) =
      if continuesRegion regions line then [] else regions.filter (·.line = line) := by
  rw [counted, List.filter_filter]
  split
  · next h =>
    rw [List.filter_eq_nil_iff]
    intro r _ hr
    rw [Bool.and_eq_true, decide_eq_true_eq, Bool.not_eq_true'] at hr
    rw [hr.1, h] at hr
    exact absurd hr.2 (by simp)
  · next h =>
    apply List.filter_congr
    intro r _
    by_cases hr : r.line = line
    · simp [hr, h]
    · simp [hr]

/-- **Consecutive lines are indented by the walk over the statements that count.** -/
theorem reindentLines_eq (h : regions.Pairwise fun r s => r.line ≤ s.line) (line : Nat)
    (ls : List (List Char)) :
    reindentLines regions unit keepIndent line (walk 0 (deltasBefore (counted regions) line)) ls =
      ls.mapIdx fun i l =>
        if continuesRegion regions (line + i) then l
        else writtenLine unit keepIndent (lowestOn (counted regions) (line + i)) l := by
  have hsorted : (counted regions).Pairwise fun r s => r.line ≤ s.line := h.filter _
  induction ls generalizing line with
  | nil => rfl
  | cons l ls ih =>
    have hnext : walk 0 (deltasBefore (counted regions) (line + 1)) =
        walk (walk 0 (deltasBefore (counted regions) line)) (deltasOn (counted regions) line) := by
      rw [deltasBefore_succ hsorted, walk_append]
    have hrest := ih (line + 1)
    rw [hnext] at hrest
    have hshift : ∀ i, line + 1 + i = line + (i + 1) := fun i => by omega
    simp only [hshift] at hrest
    rw [List.mapIdx_cons, Nat.add_zero]
    by_cases hline : continuesRegion regions line = true
    · have hnone : deltasOn (counted regions) line = [] := by
        rw [deltasOn, filter_counted, if_pos hline]
        rfl
      rw [hnone] at hrest
      rw [reindentLines_cons_of_continues hline, if_pos hline]
      exact congrArg _ hrest
    · have hsame : deltasOn (counted regions) line = deltasOn regions line := by
        rw [deltasOn, deltasOn, filter_counted, if_neg hline]
      rw [hsame] at hrest
      rw [reindentLines_cons_of_starts hline, if_neg hline, lineDepth_eq, hrest, lowestOn, hsame]

end Sorted

/-- **Every line is indented by the walk over the statements that count**, but for the lines
that begin inside a region. -/
theorem writtenLines_eq (unit : List Char) (keepIndent : Bool) (cs : List Char) :
    writtenLines unit keepIndent cs =
      (Text.splitAt '\n' cs).mapIdx fun i l =>
        if continuesRegion (templateRegions cs) (i + 1) then l
        else writtenLine unit keepIndent (lowestOn (counted (templateRegions cs)) (i + 1)) l := by
  have hsorted : (templateRegions cs).Pairwise fun r s => r.line ≤ s.line :=
    (pairwise_line_ofDocument cs).filter _
  have hpositive : deltasBefore (counted (templateRegions cs)) 1 = [] := by
    have hnone : (counted (templateRegions cs)).filter (·.line < 1) = [] := by
      rw [List.filter_eq_nil_iff]
      intro r hr
      have hmem := (List.mem_filter.mp (List.mem_filter.mp hr).1).1
      have hfrom : 1 ≤ r.line := (pairwise_line_locate .origin _).2 r hmem
      rw [decide_eq_true_eq]
      omega
    rw [deltasBefore, hnone]
    rfl
  have hshift : ∀ i, i + 1 = 1 + i := fun i => Nat.add_comm i 1
  simp only [hshift]
  rw [← reindentLines_eq hsorted, hpositive]
  rfl

theorem splitAt_reindent (hfree : '\n' ∉ unit) (cs : List Char) :
    Text.splitAt '\n' (reindent unit keepIndent cs) = writtenLines unit keepIndent cs := by
  have hlines : ∀ l ∈ Text.splitAt '\n' cs, '\n' ∉ l := fun l hl => by
    rw [Text.splitAt_eq_splitOn] at hl
    exact Text.not_mem_of_mem_splitOn hl
  have hne : writtenLines unit keepIndent cs ≠ [] := by
    rw [writtenLines_eq, Text.splitAt_eq_splitOn, ne_eq, List.mapIdx_eq_nil_iff]
    exact List.splitOn_ne_nil _ _
  rw [reindent_eq_joinWith, Text.joinWith, Text.splitAt_eq_splitOn]
  exact List.splitOn_intercalate '\n' (newline_not_mem_reindentLines hfree hlines) hne

/-! ### When all statements count -/

/-- A line, counted from zero, that is not blank and begins outside the regions. -/
structure Indented (cs : List Char) (i : Nat) (l : List Char) : Prop where
  get : (Text.splitAt '\n' cs)[i]? = some l
  ink : Text.trim l ≠ []
  outside : continuesRegion (templateRegions cs) (i + 1) = false

theorem Indented.written {cs l : List Char} {i : Nat} (h : Indented cs i l) (unit : List Char) :
    (writtenLines unit false cs)[i]? =
      some (indent unit (lowestOn (counted (templateRegions cs)) (i + 1)) (Text.trim l)) := by
  have hink : ¬ (Text.trim l).isEmpty = true := fun hnil => h.ink (List.isEmpty_iff.mp hnil)
  rw [writtenLines_eq, List.getElem?_mapIdx, h.get, Option.map_some, if_neg (by simp [h.outside]),
    writtenLine, if_neg hink, if_neg (by decide)]

theorem indent_inj_iff (unit : List Char) (m n : Nat) (cs : List Char) :
    indent unit m cs = indent unit n cs ↔ unit = [] ∨ m = n := by
  rw [indent, indent, List.append_left_inj]
  constructor
  · intro h
    have hlength := congrArg List.length h
    simp only [List.length_flatten, List.map_replicate, List.sum_replicate_nat] at hlength
    by_cases hunit : unit = []
    · exact Or.inl hunit
    · exact Or.inr (Nat.eq_of_mul_eq_mul_right (List.length_pos_iff.mpr hunit) hlength)
  · rintro (rfl | rfl)
    · simp
    · rfl

/-- Regions without events can be left out of the walk. -/
theorem lowestOn_counted_of_none {regions : List Region}
    (h : ∀ r ∈ regions, continuesRegion regions r.line = true → Nesting.Event.ofRegion? r = none)
    (line : Nat) : lowestOn (counted regions) line = lowestOn regions line := by
  have hevents : ∀ p : Region → Bool,
      Nesting.events ((counted regions).filter p) = Nesting.events (regions.filter p) := by
    intro p
    rw [counted, List.filter_comm]
    apply Nesting.events_filter
    intro r hr hline
    exact h r (List.mem_filter.mp hr).1 (by simpa using hline)
  rw [lowestOn, lowestOn, deltasBefore, deltasBefore, deltasOn, deltasOn, hevents, hevents]

/-- **Indentation by the walk over all statements.**  A line is indented by the statements
that count, and so by all of them exactly when both walks have the same lowest depth on it.
They have when no block is opened or closed, and no section started, on a line that begins
inside a region. -/
theorem indents_all_iff (unit cs : List Char) :
    reindent unit false cs = Text.joinWith ['\n'] (writtenLines unit false cs) ∧
      ('\n' ∉ unit → Text.splitAt '\n' (reindent unit false cs) = writtenLines unit false cs) ∧
      (∀ i l, Indented cs i l → (writtenLines unit false cs)[i]? =
        some (indent unit (lowestOn (counted (templateRegions cs)) (i + 1)) (Text.trim l))) ∧
      ((∀ i l, Indented cs i l → (writtenLines unit false cs)[i]? =
          some (indent unit (lowestOn (templateRegions cs) (i + 1)) (Text.trim l))) ↔
        unit = [] ∨ ∀ i l, Indented cs i l →
          lowestOn (counted (templateRegions cs)) (i + 1) =
            lowestOn (templateRegions cs) (i + 1)) ∧
      ((∀ r ∈ templateRegions cs, continuesRegion (templateRegions cs) r.line = true →
          Nesting.Event.ofRegion? r = none) →
        ∀ i l, Indented cs i l → (writtenLines unit false cs)[i]? =
          some (indent unit (lowestOn (templateRegions cs) (i + 1)) (Text.trim l))) := by
  refine ⟨reindent_eq_joinWith unit false cs, fun hfree => splitAt_reindent hfree cs,
    fun i l hl => hl.written unit, ?_, fun hnone i l hl => ?_⟩
  · have hone : ∀ i l, Indented cs i l → ((writtenLines unit false cs)[i]? =
        some (indent unit (lowestOn (templateRegions cs) (i + 1)) (Text.trim l)) ↔
          unit = [] ∨ lowestOn (counted (templateRegions cs)) (i + 1) =
            lowestOn (templateRegions cs) (i + 1)) := fun i l hl => by
      rw [hl.written, Option.some.injEq, indent_inj_iff]
    constructor
    · intro hall
      by_cases hunit : unit = []
      · exact Or.inl hunit
      · exact Or.inr fun i l hl => ((hone i l hl).mp (hall i l hl)).resolve_left hunit
    · rintro (hunit | hall) i l hl
      · exact (hone i l hl).mpr (Or.inl hunit)
      · exact (hone i l hl).mpr (Or.inr (hall i l hl))
  · rw [hl.written, lowestOn_counted_of_none hnone]

/-- After an output that spans lines and ends on a line of its own, a loop indents what
stands in it. -/
theorem indents_all_loop_after_span :
    (∀ r ∈ templateRegions "\x7b\x7b a(\n b) \x7d\x7d\n\x7b% for x in y %\x7d\nfoo".toList,
        continuesRegion
          (templateRegions "\x7b\x7b a(\n b) \x7d\x7d\n\x7b% for x in y %\x7d\nfoo".toList)
            r.line = true → Nesting.Event.ofRegion? r = none) ∧
      (Text.splitAt '\n' (reindent "  ".toList false
        "\x7b\x7b a(\n b) \x7d\x7d\n\x7b% for x in y %\x7d\nfoo".toList))[3]? =
          some "  foo".toList := by
  have hnone : ∀ r ∈
      templateRegions "\x7b\x7b a(\n b) \x7d\x7d\n\x7b% for x in y %\x7d\nfoo".toList,
        continuesRegion
          (templateRegions "\x7b\x7b a(\n b) \x7d\x7d\n\x7b% for x in y %\x7d\nfoo".toList)
            r.line = true → Nesting.Event.ofRegion? r = none := by decide +kernel
  obtain ⟨-, hsplit, -, -, hall⟩ := indents_all_iff "  ".toList
    "\x7b\x7b a(\n b) \x7d\x7d\n\x7b% for x in y %\x7d\nfoo".toList
  refine ⟨hnone, ?_⟩
  rw [hsplit (by decide), hall hnone 3 "foo".toList ⟨by decide, by decide, by decide +kernel⟩]
  decide +kernel

/-- A block that is opened where a region that spans lines ends does not indent the lines in
it. -/
theorem indents_misses_block_after_span :
    ∃ i l, Indented "\x7b\x7b a(\n b) \x7d\x7d\x7b% if x %\x7d\nfoo\n\x7b% endif %\x7d".toList i l ∧
      (Text.splitAt '\n' (reindent "    ".toList false
          "\x7b\x7b a(\n b) \x7d\x7d\x7b% if x %\x7d\nfoo\n\x7b% endif %\x7d".toList))[i]? ≠
        some (indent "    ".toList
          (lowestOn (templateRegions
            "\x7b\x7b a(\n b) \x7d\x7d\x7b% if x %\x7d\nfoo\n\x7b% endif %\x7d".toList) (i + 1))
          (Text.trim l)) :=
  ⟨2, "foo".toList, ⟨by decide, by decide, by decide +kernel⟩, by decide +kernel⟩

end TwigTemplate.Layout
