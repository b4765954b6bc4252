import TwigTemplate.Proofs.Layout.Ends

/-!
# Blank lines between lines with ink

The built-in printer drops the blank lines at either end of a document and keeps at most so many of
those that follow one another.  What it does to the lines themselves is left out here: a document
is seen as its lines with ink, each with the number of blank lines before it.

* `gaps`: lines that are not empty, each with the number of empty ones before it.
* `capGaps`: what the printer does to these numbers.
* `gaps_printRows`, `gaps_printedLines`: **printing caps the gaps and closes the one at the start**.
-/

namespace TwigTemplate.Layout

open Text (trimBy)

variable {α β : Type}

/-- The lines that are not empty, each with the number of empty lines right before it.  The first
argument is the number of those that have just been passed. -/
def gaps (n : Nat) : List (List α) → List (Nat × List α)
  | [] => []
  | l :: ls => if l.isEmpty then gaps (n + 1) ls else (n, l) :: gaps 0 ls

/-- No gap is larger than `cap`. -/
def capped (cap : Nat) (gs : List (Nat × List α)) : List (Nat × List α) :=
  gs.map fun g => (min g.1 cap, g.2)

/-- No gap is larger than `cap`, and the one at the start is closed. -/
def capGaps (cap : Nat) : List (Nat × List α) → List (Nat × List α)
  | [] => []
  | (_, l) :: gs => (0, l) :: capped cap gs

theorem gaps_cons_nil (n : Nat) (ls : List (List α)) : gaps n ([] :: ls) = gaps (n + 1) ls := rfl

theorem gaps_cons_of_ne_nil {l : List α} (hl : l ≠ []) (n : Nat) (ls : List (List α)) :
    gaps n (l :: ls) = (n, l) :: gaps 0 ls := by
  rw [gaps, if_neg (by simpa using hl)]

theorem gaps_append_empty {w : List (List α)} (hw : ∀ l ∈ w, l = []) (n : Nat)
    (ls : List (List α)) : gaps n (ls ++ w) = gaps n ls := by
  have hnone : ∀ n : Nat, gaps n w = [] := by
    induction w with
    | nil => exact fun _ => rfl
    | cons l w ih =>
      intro n
      obtain rfl : l = [] := hw l List.mem_cons_self
      rw [gaps_cons_nil, ih fun m hm => hw m (List.mem_cons_of_mem _ hm)]
  induction ls generalizing n with
  | nil => exact hnone n
  | cons l ls ih =>
    rw [List.cons_append]
    by_cases hl : l = []
    · rw [hl, gaps_cons_nil, gaps_cons_nil, ih]
    · rw [gaps_cons_of_ne_nil hl, gaps_cons_of_ne_nil hl, ih]

theorem gaps_map {g : List α → List β} {ls : List (List α)} (hg : ∀ l ∈ ls, g l = [] ↔ l = [])
    (n : Nat) : gaps n (ls.map g) = (gaps n ls).map fun e => (e.1, g e.2) := by
  induction ls generalizing n with
  | nil => rfl
  | cons l ls ih =>
    have hrest : ∀ m ∈ ls, g m = [] ↔ m = [] := fun m hm => hg m (List.mem_cons_of_mem _ hm)
    rw [List.map_cons]
    by_cases hl : l = []
    · rw [(hg l List.mem_cons_self).mpr hl, hl, gaps_cons_nil, gaps_cons_nil, ih hrest]
    · rw [gaps_cons_of_ne_nil hl, gaps_cons_of_ne_nil (mt (hg l List.mem_cons_self).mp hl),
        ih hrest, List.map_cons]

theorem capGaps_map (g : List α → List β) (cap : Nat) (gs : List (Nat × List α)) :
    capGaps cap (gs.map fun e => (e.1, g e.2)) =
      (capGaps cap gs).map fun e => (e.1, g e.2) := by
  cases gs with
  | nil => rfl
  | cons e gs => simp [capGaps, capped]

/-! ### Printed rows -/

section Printed

variable {p : α → Bool} {unit : List α} {cap : Nat}

theorem gaps_printRows_of_started (hunit : ∀ x ∈ unit, p x = true) (depth blanks : Nat)
    (prs : List (List α × List Int)) :
    gaps (min blanks cap) ((printRows cap p unit ⟨depth, blanks, false⟩ prs).map (trimBy p)) =
      capped cap (gaps blanks ((prs.map Prod.fst).map (trimBy p))) := by
  induction prs generalizing depth blanks with
  | nil => rfl
  | cons r prs ih =>
    obtain ⟨l, d⟩ := r
    rw [List.map_cons, List.map_cons]
    by_cases hl : trimBy p l = []
    · rw [printRows_cons_of_blank (Text.trimBy_eq_nil_iff.mp hl), hl, gaps_cons_nil, ← ih depth]
      by_cases hcap : blanks + 1 ≤ cap
      · rw [if_pos (by simpa using hcap), List.singleton_append, List.map_cons]
        show gaps (min blanks cap) ([] :: _) = _
        rw [gaps_cons_nil, Nat.min_eq_left (by omega), Nat.min_eq_left hcap]
      · rw [if_neg (by simpa using hcap), List.nil_append, Nat.min_eq_right (by omega),
          Nat.min_eq_right (by omega)]
    · rw [printRows_cons_of_ink hl, List.map_cons, trimBy_indentBy hunit, Text.trimBy_trimBy,
        gaps_cons_of_ne_nil hl, gaps_cons_of_ne_nil hl]
      have hrest := ih (lineDepth depth d).2 0
      rw [Nat.zero_min] at hrest
      rw [hrest]
      rfl

/-- **Printing caps the gaps and closes the one at the start.** -/
theorem gaps_printRows (hunit : ∀ x ∈ unit, p x = true) (depth blanks n : Nat)
    (prs : List (List α × List Int)) :
    gaps 0 ((printRows cap p unit ⟨depth, blanks, true⟩ prs).map (trimBy p)) =
      capGaps cap (gaps n ((prs.map Prod.fst).map (trimBy p))) := by
  induction prs generalizing blanks n with
  | nil => rfl
  | cons r prs ih =>
    obtain ⟨l, d⟩ := r
    rw [List.map_cons, List.map_cons]
    by_cases hl : trimBy p l = []
    · rw [printRows_cons_of_blank (Text.trimBy_eq_nil_iff.mp hl), if_neg (by simp),
        List.nil_append, hl, gaps_cons_nil, ih]
    · have hrest : gaps (min 0 cap) ((printRows cap p unit ⟨(lineDepth depth d).2, 0, false⟩
          prs).map (trimBy p)) = capped cap (gaps 0 ((prs.map Prod.fst).map (trimBy p))) :=
        gaps_printRows_of_started hunit _ 0 prs
      rw [Nat.zero_min] at hrest
      rw [printRows_cons_of_ink hl, List.map_cons, trimBy_indentBy hunit, Text.trimBy_trimBy,
        gaps_cons_of_ne_nil hl, gaps_cons_of_ne_nil hl, hrest]
      rfl

/-- So it does on the whole: the rows that are dropped at the end stand before no line. -/
theorem gaps_printedLines [BEq α] (o : PrinterOptions) {nl : α} (hunit : ∀ x ∈ unit, p x = true)
    (deltas : Nat → List Int) (xs : List α) :
    gaps 0 ((printedLines o p nl unit deltas xs).map (trimBy p)) =
      capGaps o.maxBlankLines (gaps 0 ((xs.splitOn nl).map (trimBy p))) := by
  obtain ⟨w, hw, hempty⟩ := Text.exists_eq_rdropWhile_append List.isEmpty
    (printRows o.maxBlankLines p unit ⟨0, 0, true⟩ (rowsOf deltas (xs.splitOn nl)))
  have hblank : ∀ l ∈ w.map (trimBy p), l = [] := by
    intro l hl
    obtain ⟨row, hrow, rfl⟩ := List.mem_map.mp hl
    rw [List.isEmpty_iff.mp (hempty row hrow)]
    rfl
  calc gaps 0 ((printedLines o p nl unit deltas xs).map (trimBy p))
      = gaps 0 ((printRows o.maxBlankLines p unit ⟨0, 0, true⟩
          (rowsOf deltas (xs.splitOn nl))).map (trimBy p)) := by
        rw [hw, List.map_append, gaps_append_empty hblank, printedLines]
    _ = capGaps o.maxBlankLines (gaps 0 ((xs.splitOn nl).map (trimBy p))) := by
        rw [gaps_printRows hunit 0 0 0, map_fst_rowsOf]

end Printed

end TwigTemplate.Layout
