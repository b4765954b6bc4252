import TwigTemplate.Proofs.Element.Relining
import TwigTemplate.Proofs.Layout.Reformatting

/-!
# Printing a text twice

The depth changes of a line are told by its letters, and printing keeps them.  So a printed text is
printed as it stands.

* `rowsAhead`: rows with the depth changes of their letters.  `rowsOf_lineDeltas`: **the rows of a
  text are such rows**.
* `printRows_again`: **rows that were printed are printed again as they are**.
* `tagsAhead_printMarkup`: a printed text has the same tags, in front of the same letters.
* `builtin_again`: **the built-in printer is idempotent** on markup without template code.
-/

namespace TwigTemplate.Layout

open Text (isBlank trimBy inkBy inkOf solid)
open Element (letters tagsAhead CodeFree)

/-! ### Rows told by their letters -/

/-- The depth changes of the tags with more than `below` letters from them on, and `above` at
most. -/
def deltasBetween (cs : List Char) (above below : Nat) : List Int :=
  ((tagsAhead cs).filter fun t => below < t.2 ∧ t.2 ≤ above).map (·.1.2.delta)

/-- Lines, each with the depth changes for the letters from its start on and from its end on. -/
def rowsAhead (deltas : Nat → Nat → List Int) : List (List Char) → List (List Char × List Int)
  | [] => []
  | l :: ls => (l, deltas (letters (l :: ls)) (letters ls)) :: rowsAhead deltas ls

theorem rowsOf_cons {α : Type} (deltas : Nat → List Int) (l : List α) (ls : List (List α)) :
    rowsOf deltas (l :: ls) = (l, deltas 0) :: rowsOf (fun i => deltas (i + 1)) ls := by
  rw [rowsOf, rowsOf, List.zipIdx_cons, List.map_cons, List.zipIdx_succ, List.map_map]
  rfl

theorem rowsOf_eq_rowsAhead (deltas : Nat → Nat → List Int) (ls : List (List Char)) :
    rowsOf (fun i => deltas (letters (ls.drop i)) (letters (ls.drop (i + 1)))) ls =
      rowsAhead deltas ls := by
  induction ls with
  | nil => rfl
  | cons l ls ih =>
    rw [rowsOf_cons, rowsAhead, ← ih]
    rfl

/-- **The rows of a text are told by their letters.** -/
theorem rowsOf_lineDeltas (cs : List Char) :
    rowsOf (lineDeltas cs) (cs.splitOn '\n') =
      rowsAhead (deltasBetween cs) (cs.splitOn '\n') := by
  rw [← rowsOf_eq_rowsAhead]
  congr 1
  funext i
  exact Element.filter_tagsFrom_newlineCount [] cs i

theorem map_fst_rowsAhead (deltas : Nat → Nat → List Int) (ls : List (List Char)) :
    (rowsAhead deltas ls).map Prod.fst = ls := by
  induction ls with
  | nil => rfl
  | cons l ls ih => rw [rowsAhead, List.map_cons, ih]

/-! ### Printing rows twice -/

section Rows

variable {cap : Nat} {unit : List Char} {deltas : Nat → Nat → List Int}

theorem letters_eq_of_ink {ls ms : List (List Char)} (h : inkOf isBlank ls = inkOf isBlank ms) :
    letters ls = letters ms := by
  have hink : ∀ ls : List (List Char), letters ls = (solid (inkOf isBlank ls).flatten).length := by
    intro ls
    rw [letters, solid, solid, Text.filter_flatten_inkOf]
  rw [hink, hink, h]

theorem letters_printRows (hunit : ∀ c ∈ unit, isBlank c = true) (s : PrintState)
    (ls : List (List Char)) :
    letters (printRows cap isBlank unit s (rowsAhead deltas ls)) = letters ls := by
  apply letters_eq_of_ink
  rw [inkOf_printRows hunit, map_fst_rowsAhead]

/-- **Rows that were printed are printed again as they are.**  Before any row is written the number
of blank rows so far does not count, and later it counts as far as they are kept. -/
theorem printRows_again (hunit : ∀ c ∈ unit, isBlank c = true) (ls : List (List Char))
    (s : PrintState) (blanks : Nat) (h : s.atStart = true ∨ blanks = min s.blanks cap) :
    printRows cap isBlank unit ⟨s.depth, blanks, s.atStart⟩
        (rowsAhead deltas (printRows cap isBlank unit s (rowsAhead deltas ls))) =
      printRows cap isBlank unit s (rowsAhead deltas ls) := by
  induction ls generalizing s blanks with
  | nil => rfl
  | cons l ls ih =>
    have hletters := @letters_printRows cap unit deltas hunit s (l :: ls)
    rw [rowsAhead] at hletters ⊢
    by_cases hl : trimBy isBlank l = []
    · rw [printRows_cons_of_blank (Text.trimBy_eq_nil_iff.mp hl)]
      by_cases hkept : s.atStart = false ∧ s.blanks + 1 ≤ cap
      · have hblanks : blanks = s.blanks := by
          rw [h.resolve_left (by simp [hkept.1]), Nat.min_eq_left (by omega)]
        have hkeeps : (!s.atStart && s.blanks + 1 ≤ cap) = true := by simpa using hkept
        rw [if_pos hkeeps, List.singleton_append, rowsAhead, hblanks,
          printRows_cons_of_blank (by simp), if_pos hkeeps, List.singleton_append,
          ih ⟨s.depth, s.blanks + 1, s.atStart⟩ _ (Or.inr (Nat.min_eq_left hkept.2).symm)]
      · have hdrops : ¬ (!s.atStart && s.blanks + 1 ≤ cap) = true := by simpa using hkept
        rw [if_neg hdrops, List.nil_append]
        refine ih ⟨s.depth, s.blanks + 1, s.atStart⟩ _ ?_
        cases hstart : s.atStart with
        | true => exact Or.inl rfl
        | false =>
          have hfull : ¬ s.blanks + 1 ≤ cap := fun hle => hkept ⟨hstart, hle⟩
          refine Or.inr ?_
          show blanks = min (s.blanks + 1) cap
          rw [h.resolve_left (by simp [hstart])]
          omega
    · have hink : trimBy isBlank (indentBy unit (lineDepth s.depth
          (deltas (letters (l :: ls)) (letters ls))).1 (trimBy isBlank l)) = trimBy isBlank l := by
        rw [trimBy_indentBy hunit, Text.trimBy_trimBy]
      rw [printRows_cons_of_ink hl] at hletters ⊢
      rw [rowsAhead, hletters, letters_printRows hunit, printRows_cons_of_ink (hink.symm ▸ hl),
        hink, ih ⟨_, 0, false⟩ 0 (Or.inr (Nat.zero_min cap).symm)]

theorem rowsAhead_append_nil (deltas : Nat → Nat → List Int) (ls : List (List Char)) :
    rowsAhead deltas (ls ++ [[]]) = rowsAhead deltas ls ++ [([], deltas 0 0)] := by
  have hletters : ∀ ls : List (List Char), letters (ls ++ [[]]) = letters ls := by
    intro ls
    rw [letters, letters, List.flatten_concat, List.append_nil]
  induction ls with
  | nil => rfl
  | cons l ls ih =>
    have hcons : letters (l :: (ls ++ [[]])) = letters (l :: ls) := hletters (l :: ls)
    rw [List.cons_append, rowsAhead, rowsAhead, ih, hcons, hletters, List.cons_append]

theorem rdropWhile_printRows_append {ws : List (List Char)} (hws : ∀ w ∈ ws, w.isEmpty = true)
    (s : PrintState) (ls : List (List Char)) :
    (printRows cap isBlank unit s (rowsAhead deltas (ls ++ ws))).rdropWhile List.isEmpty =
      (printRows cap isBlank unit s (rowsAhead deltas ls)).rdropWhile List.isEmpty := by
  induction ws generalizing ls with
  | nil => rw [List.append_nil]
  | cons w ws ih =>
    obtain ⟨hw, hrest⟩ := List.forall_mem_cons.mp hws
    obtain rfl := List.isEmpty_iff.mp hw
    obtain ⟨ws', hrows, hall⟩ := printRows_append_blank cap unit (p := isBlank) (l := [])
      (by simp) (deltas 0 0) s (rowsAhead deltas ls)
    rw [List.append_cons, ih hrest, rowsAhead_append_nil, hrows,
      Text.rdropWhile_append_of_all _ hall]

theorem rdropWhile_printRows_again (hunit : ∀ c ∈ unit, isBlank c = true) {ls ms : List (List Char)}
    (hms : ms = (printRows cap isBlank unit ⟨0, 0, true⟩ (rowsAhead deltas ls)).rdropWhile
      List.isEmpty) :
    (printRows cap isBlank unit ⟨0, 0, true⟩ (rowsAhead deltas ms)).rdropWhile List.isEmpty =
      ms := by
  have hagain := @printRows_again cap unit deltas hunit ls ⟨0, 0, true⟩ 0 (Or.inl rfl)
  obtain ⟨ws, hws, hall⟩ := Text.exists_eq_rdropWhile_append List.isEmpty
    (printRows cap isBlank unit ⟨0, 0, true⟩ (rowsAhead deltas ls))
  rw [← hms] at hws
  rw [← rdropWhile_printRows_append hall, ← hws, hagain, ← hms]

end Rows

/-! ### Printing a text twice -/

theorem exists_splitOn_closeLines (o : PrinterOptions) {ls : List (List Char)}
    (hls : ∀ l ∈ ls, '\n' ∉ l) : ∃ ws, (closeLines o '\n' ls).splitOn '\n' = ls ++ ws ∧
      ∀ w ∈ ws, w.isEmpty = true := by
  have hnil : ∀ w ∈ [([] : List Char)], w.isEmpty = true := by simp
  by_cases hne : ls = []
  · subst hne
    refine ⟨[[]], ?_, hnil⟩
    rw [closeLines]
    simp
  · have hsplit := List.splitOn_intercalate '\n' hls hne
    rw [closeLines]
    split
    · refine ⟨[[]], ?_, hnil⟩
      rw [List.splitOn_append_cons_self, hsplit, List.splitOn_nil]
    · exact ⟨[], by rw [hsplit, List.append_nil], by simp⟩

/-- Printing keeps the tags, and the letters from each on. -/
theorem tagsAhead_printMarkup (o : PrinterOptions) {cs : List Char} (hfree : CodeFree cs) :
    tagsAhead (printMarkup o cs) = tagsAhead cs := by
  have hdrop : ∀ cs : List Char, tagsAhead cs = tagsAhead (cs.dropWhile isBlank) := by
    intro cs
    conv_lhs => rw [← @List.takeWhile_append_dropWhile _ isBlank cs]
    exact Element.tagsAhead_blank (fun c hc => List.mem_takeWhile_imp hc) _
  have hink : inkBy isBlank '\n' cs = inkBy isBlank '\n' (printMarkup o cs) := by
    rw [printMarkup_eq_layOut]
    exact (inkBy_layOut (isBlank_of_mem_indentUnit o) (newline_not_mem_indentUnit o)).symm
  rw [hdrop, hdrop cs]
  exact (Element.tagsAhead_relined (hfree.of_suffix (List.dropWhile_suffix _))
    (Text.relined_of_ink hink)).symm

theorem printedLines_eq (o : PrinterOptions) (cs : List Char) :
    printedLines o isBlank '\n' o.indentUnit (lineDeltas cs) cs =
      (printRows o.maxBlankLines isBlank o.indentUnit ⟨0, 0, true⟩
        (rowsAhead (deltasBetween cs) (cs.splitOn '\n'))).rdropWhile List.isEmpty := by
  rw [printedLines, rowsOf_lineDeltas]

/-- **Markup without template code is printed as it stands** once it was printed. -/
theorem printMarkup_printMarkup (o : PrinterOptions) {cs : List Char} (hfree : CodeFree cs) :
    printMarkup o (printMarkup o cs) = printMarkup o cs := by
  have hunit := isBlank_of_mem_indentUnit o
  have hdeltas : deltasBetween (printMarkup o cs) = deltasBetween cs := by
    funext above below
    rw [deltasBetween, tagsAhead_printMarkup o hfree, deltasBetween]
  have hlines : printedLines o isBlank '\n' o.indentUnit (lineDeltas (printMarkup o cs))
      (printMarkup o cs) = printedLines o isBlank '\n' o.indentUnit (lineDeltas cs) cs := by
    have hno : ∀ l ∈ printedLines o isBlank '\n' o.indentUnit (lineDeltas cs) cs, '\n' ∉ l :=
      fun l hl => nl_not_mem_of_mem_printedLines (newline_not_mem_indentUnit o) hl
    obtain ⟨ws, hsplit, hall⟩ := exists_splitOn_closeLines o hno
    rw [← layOut, ← printMarkup_eq_layOut] at hsplit
    rw [printedLines_eq, hdeltas, hsplit, rdropWhile_printRows_append hall]
    exact rdropWhile_printRows_again hunit (printedLines_eq o cs)
  rw [printMarkup_eq_layOut o (printMarkup o cs), layOut, hlines, ← layOut, ← printMarkup_eq_layOut]

/-- **The built-in printer is idempotent** on markup without template code: what it printed it
prints again as it stands. -/
theorem builtin_again (o : PrinterOptions) (cs : List Char)
    (h : ∀ form : Form, Text.occursIn form.opener cs = false) :
    ∃ out, Printer.builtin o cs = .ok out ∧ Printer.builtin o out = .ok out := by
  have hfree : CodeFree cs := fun form hform => by
    rw [← Text.occursIn_iff, h form] at hform
    exact Bool.false_ne_true hform
  exact ⟨printMarkup o cs, rfl, congrArg Except.ok (printMarkup_printMarkup o hfree)⟩

/-- A quoted value that spans lines and holds what looks like a tag, and a run of blank lines. -/
theorem builtin_again_value :
    (∀ form : Form, Text.occursIn form.opener "<p a=\"\n<b>\">\n\n\n\nx".toList = false) ∧
      Printer.builtin .standard "<p a=\"\n<b>\">\n\n\n\nx".toList =
        .ok "<p a=\"\n    <b>\">\n\n\n    x\n".toList ∧
      Printer.builtin .standard "<p a=\"\n    <b>\">\n\n\n    x\n".toList =
        .ok "<p a=\"\n    <b>\">\n\n\n    x\n".toList := by
  have hfree : ∀ form : Form,
      Text.occursIn form.opener "<p a=\"\n<b>\">\n\n\n\nx".toList = false := by
    intro form
    cases form <;> decide +kernel
  have hprinted : Printer.builtin .standard "<p a=\"\n<b>\">\n\n\n\nx".toList =
      .ok "<p a=\"\n    <b>\">\n\n\n    x\n".toList := by decide +kernel
  obtain ⟨out, hout, hagain⟩ := builtin_again .standard _ hfree
  obtain rfl := Except.ok.inj (hprinted.symm.trans hout)
  exact ⟨hfree, hprinted, hagain⟩

end TwigTemplate.Layout
