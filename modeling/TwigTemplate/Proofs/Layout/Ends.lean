import TwigTemplate.Proofs.Layout.Settled

/-!
# The first and the last row of a formatted document

A formatted document begins with ink and ends with ink, or with ink and a newline
if one is asked for.  This is seen in its characters, as the rows that were laid
out need not be those that a scan of the printed text finds.

* `exists_closedRows`: **the rows of a formatted document**, between a first and a
  last one that are not blank.
-/

namespace TwigTemplate.Layout

open Text (isBlank trimBy)
open Region (Token Scans tell rows squeeze Shaped)

/-! ### Printed rows -/

section Printed

variable {α : Type} {p : α → Bool} {unit : List α} {cap : Nat}

theorem exists_indentBy_of_mem_printRows {s : PrintState} {prs : List (List α × List Int)}
    {l : List α} (hl : l ∈ printRows cap p unit s prs) :
    l = [] ∨ ∃ depth, ∃ r ∈ prs, trimBy p r.1 ≠ [] ∧ l = indentBy unit depth (trimBy p r.1) := by
  induction prs generalizing s with
  | nil => simp [printRows] at hl
  | cons r prs ih =>
    have hrest : ∀ {s : PrintState}, l ∈ printRows cap p unit s prs → l = [] ∨
        ∃ depth, ∃ q ∈ r :: prs, trimBy p q.1 ≠ [] ∧ l = indentBy unit depth (trimBy p q.1) := by
      intro s hl
      refine (ih hl).imp_right ?_
      rintro ⟨depth, q, hq, h⟩
      exact ⟨depth, q, List.mem_cons_of_mem _ hq, h⟩
    obtain ⟨m, d⟩ := r
    by_cases hm : trimBy p m = []
    · rw [printRows_cons_of_blank (Text.trimBy_eq_nil_iff.mp hm)] at hl
      rcases List.mem_append.mp hl with hl | hl
      · left
        split at hl
        · exact List.mem_singleton.mp hl
        · simp at hl
      · exact hrest hl
    · rw [printRows_cons_of_ink hm] at hl
      rcases List.mem_cons.mp hl with rfl | hl
      · exact Or.inr ⟨_, (m, d), List.mem_cons_self, hm, rfl⟩
      · exact hrest hl

theorem trimmed_of_mem_printRows {s : PrintState} {prs : List (List α × List Int)} {l : List α}
    (hl : l ∈ printRows cap p unit s prs) : l = [] ∨ l.rdropWhile p = l ∧ ∃ x ∈ l, p x = false := by
  refine (exists_indentBy_of_mem_printRows hl).imp_right ?_
  rintro ⟨depth, r, -, hr, rfl⟩
  obtain ⟨x, xs, hx⟩ := List.exists_cons_of_ne_nil hr
  have hink : p x = false := Text.head?_trimBy (p := p) x (by rw [hx]; rfl)
  have hmem : x ∈ trimBy p r.1 := by
    rw [hx]
    exact List.mem_cons_self
  have hend : (trimBy p r.1).rdropWhile p = trimBy p r.1 := by
    rw [trimBy, List.rdropWhile_idempotent]
  rw [indentBy, Text.rdropWhile_append_of_ink ⟨x, hmem, hink⟩, hend]
  exact ⟨rfl, x, List.mem_append_right _ hmem, hink⟩

theorem head?_printRows {depth blanks : Nat} {prs : List (List α × List Int)} :
    ∀ l ∈ (printRows cap p unit ⟨depth, blanks, true⟩ prs).head?, ∃ x ∈ l, p x = false := by
  induction prs generalizing blanks with
  | nil => simp [printRows]
  | cons r prs ih =>
    obtain ⟨m, d⟩ := r
    by_cases hm : trimBy p m = []
    · rw [printRows_cons_of_blank (Text.trimBy_eq_nil_iff.mp hm), if_neg (by simp)]
      exact ih
    · rw [printRows_cons_of_ink hm]
      intro l hl
      obtain rfl := Option.some.inj hl
      obtain ⟨x, xs, hx⟩ := List.exists_cons_of_ne_nil hm
      have hink : p x = false := Text.head?_trimBy (p := p) x (by rw [hx]; rfl)
      refine ⟨x, List.mem_append_right _ ?_, hink⟩
      rw [hx]
      exact List.mem_cons_self

theorem printRows_append_ink {l : List α} (hl : trimBy p l ≠ []) (deltas : List Int)
    (s : PrintState) (prs : List (List α × List Int)) :
    ∃ front depth, printRows cap p unit s (prs ++ [(l, deltas)]) =
      front ++ [indentBy unit depth (trimBy p l)] := by
  induction prs generalizing s with
  | nil => exact ⟨[], _, by rw [List.nil_append, printRows_cons_of_ink hl]; rfl⟩
  | cons r prs ih =>
    obtain ⟨m, d⟩ := r
    rw [List.cons_append]
    by_cases hm : trimBy p m = []
    · obtain ⟨front, depth, hrest⟩ := ih ⟨s.depth, s.blanks + 1, s.atStart⟩
      refine ⟨(if !s.atStart && s.blanks + 1 ≤ cap then [[]] else []) ++ front, depth, ?_⟩
      rw [printRows_cons_of_blank (Text.trimBy_eq_nil_iff.mp hm), hrest, List.append_assoc]
    · obtain ⟨front, depth, hrest⟩ := ih ⟨(lineDepth s.depth d).2, 0, false⟩
      refine ⟨indentBy unit (lineDepth s.depth d).1 (trimBy p m) :: front, depth, ?_⟩
      rw [printRows_cons_of_ink hm, hrest, List.cons_append]

end Printed

/-! ### The ends of a text -/

/-- A text that begins with ink on its first line and ends with ink. -/
structure Compact (cs : List Char) : Prop where
  first : ∃ c ∈ cs.takeWhile (· ≠ '\n'), isBlank c = false
  last : ∀ c ∈ cs.getLast?, isBlank c = false

theorem Compact.ne_nil {cs : List Char} (h : Compact cs) : cs ≠ [] := by
  rintro rfl
  obtain ⟨c, hc, -⟩ := h.first
  simp at hc

theorem tell_intercalate_append (rs : List (List Token)) (row : List Token) :
    ∃ front, tell ([Token.newline].intercalate (rs ++ [row])) = front ++ tell row ∧
      ∀ c ∈ front.getLast?, c = '\n' := by
  induction rs with
  | nil =>
    refine ⟨[], ?_, by simp⟩
    rw [List.nil_append, List.intercalate_singleton, List.nil_append]
  | cons r rs ih =>
    obtain ⟨front, htell, hfront⟩ := ih
    refine ⟨tell r ++ '\n' :: front, ?_, ?_⟩
    · rw [List.cons_append, List.intercalate_cons_of_ne_nil (by simp), Region.tell_append,
        Region.tell_append, htell]
      simp [Token.newline]
    · intro c hc
      rw [List.getLast?_append_of_ne_nil _ (by simp)] at hc
      cases front with
      | nil => exact (Option.some.inj hc).symm
      | cons d front =>
        rw [List.getLast?_cons_of_ne_nil (by simp)] at hc
        exact hfront c hc

theorem tell_intercalate_cons (row : List Token) (rs : List (List Token)) :
    ∃ back, tell ([Token.newline].intercalate (row :: rs)) = tell row ++ back ∧
      ∀ c ∈ back.head?, c = '\n' := by
  by_cases hrs : rs = []
  · refine ⟨[], ?_, by simp⟩
    rw [hrs, List.intercalate_singleton, List.append_nil]
  · refine ⟨'\n' :: tell ([Token.newline].intercalate rs), ?_, ?_⟩
    · rw [List.intercalate_cons_of_ne_nil hrs, Region.tell_append, Region.tell_append]
      simp [Token.newline]
    · intro c hc
      exact (Option.some.inj hc).symm

/-- Rows whose text begins and ends with ink. -/
structure CompactRows (rs : List (List Token)) : Prop where
  head : ∀ row ∈ rs.head?, trimBy Token.isBlank row ≠ []
  last : ∀ row ∈ rs.getLast?, trimBy Token.isBlank row ≠ []

theorem compactRows_of_compact {rs : List (List Token)} (hrs : ∀ row ∈ rs, Token.newline ∉ row)
    (h : Compact (tell ([Token.newline].intercalate rs))) : CompactRows rs := by
  have hchars : ∀ {row : List Token}, trimBy Token.isBlank row = [] →
      ∃ w : List Char, row = w.map .char ∧ ∀ c ∈ w, isBlank c = true := by
    intro row hrow
    exact Region.exists_eq_map_char (Text.trimBy_eq_nil_iff.mp hrow)
  constructor
  · intro row hrow hblank
    obtain ⟨rest, rfl⟩ : ∃ rest, rs = row :: rest := by
      cases rs with
      | nil => simp at hrow
      | cons r rest => exact ⟨rest, by rw [Option.some.inj hrow]⟩
    obtain ⟨w, rfl, hw⟩ := hchars hblank
    obtain ⟨back, htell, hback⟩ := tell_intercalate_cons (w.map .char) rest
    have hfree : '\n' ∉ w := fun hmem =>
      hrs _ List.mem_cons_self (Region.mem_map_char.mpr hmem)
    obtain ⟨c, hc, hink⟩ := h.first
    rw [htell, Region.tell_map_char, (Region.takeWhile_newline hfree hback).1] at hc
    rw [hw c hc] at hink
    exact absurd hink (by simp)
  · intro row hrow hblank
    obtain ⟨front, rfl⟩ : ∃ front, rs = front ++ [row] := by
      refine ⟨rs.dropLast, ?_⟩
      exact (List.dropLast_append_getLast? row hrow).symm
    obtain ⟨w, rfl, hw⟩ := hchars hblank
    obtain ⟨before, htell, hbefore⟩ := tell_intercalate_append front (w.map .char)
    rw [Region.tell_map_char] at htell
    have hblankLast : ∀ c ∈ (before ++ w).getLast?, isBlank c = true := by
      intro c hc
      by_cases hwn : w = []
      · rw [hwn, List.append_nil] at hc
        rw [hbefore c hc]
        decide
      · rw [List.getLast?_append_of_ne_nil _ hwn] at hc
        exact hw c (List.mem_of_mem_getLast? hc)
    have hne := h.ne_nil
    have hlast := h.last
    rw [htell] at hne hlast
    have hmem := List.getLast?_eq_some_getLast hne
    have hink := hlast _ hmem
    rw [hblankLast _ hmem] at hink
    exact absurd hink (by simp)

/-! ### The ends of a printed document -/

section Document

variable {o : PrinterOptions} {deltas : Nat → List Int} {ts : List Token}

/-- The rows of tokens as they are printed. -/
abbrev printedRows (o : PrinterOptions) (deltas : Nat → List Int) (ts : List Token) :
    List (List Token) :=
  printedLines o Token.isBlank Token.newline (o.indentUnit.map Token.char) deltas ts

theorem shaped_map_squeeze (h : Shaped ts) : Shaped (ts.map squeeze) := by
  intro raw hraw
  obtain ⟨t, ht, he⟩ := List.mem_map.mp hraw
  cases t with
  | char c => exact absurd he (by simp [squeeze])
  | code other =>
    obtain ⟨form, inner, rfl⟩ := h other ht
    obtain rfl : Region.normalizeSpacing (form.opener ++ (inner ++ form.closer)) = raw := by
      simpa [squeeze] using he
    obtain ⟨inner', hinner⟩ := Region.normalizeSpacing_shape form inner
    exact ⟨form, inner', hinner⟩

theorem code_mem_of_mem_printedRows {row : List Token} (hrow : row ∈ printedRows o deltas ts)
    {raw : List Char} (hraw : .code raw ∈ row) : .code raw ∈ ts := by
  have hmem := (List.rdropWhile_prefix List.isEmpty _).subset hrow
  rcases mem_of_mem_printRows hmem hraw with hin | ⟨r, hr, hin⟩
  · obtain ⟨c, -, he⟩ := List.mem_map.mp hin
    exact absurd he (by simp)
  · have hline : r.1 ∈ ts.splitOn Token.newline := by
      rw [← map_fst_rowsOf deltas (ts.splitOn Token.newline)]
      exact List.mem_map_of_mem hr
    exact Text.mem_of_mem_splitOn hline hin

theorem shaped_of_mem_printedRows (h : Shaped ts) {row : List Token}
    (hrow : row ∈ printedRows o deltas ts) : Token.newline ∉ row ∧ Shaped row :=
  ⟨nl_not_mem_of_mem_printedLines (newline_not_mem_unit (newline_not_mem_indentUnit o)) hrow,
    fun raw hraw => h raw (code_mem_of_mem_printedRows hrow hraw)⟩

theorem rdropWhile_of_mem_printedRows {row : List Token} (hrow : row ∈ printedRows o deltas ts) :
    row.rdropWhile Token.isBlank = row := by
  have hmem := (List.rdropWhile_prefix List.isEmpty _).subset hrow
  rcases trimmed_of_mem_printRows hmem with rfl | h
  · rfl
  · exact h.1

theorem head?_printedRows :
    ∀ row ∈ (printedRows o deltas ts).head?, ∃ t ∈ row, t.isBlank = false := by
  intro row hrow
  rw [printedRows, printedLines] at hrow
  apply head?_printRows row
  obtain ⟨back, hback⟩ := List.rdropWhile_prefix List.isEmpty
    (l := printRows o.maxBlankLines Token.isBlank (o.indentUnit.map Token.char) ⟨0, 0, true⟩
      (rowsOf deltas (ts.splitOn Token.newline)))
  rw [← hback, List.head?_append, Option.mem_def.mp hrow]
  rfl

theorem getLast?_printedRows : ∀ row ∈ (printedRows o deltas ts).getLast?,
    row.rdropWhile Token.isBlank = row ∧ ∃ t ∈ row, t.isBlank = false := by
  intro row hrow
  rw [printedRows, printedLines] at hrow
  obtain ⟨front, hfront⟩ := List.getLast?_eq_some_iff.mp hrow
  have hmem : row ∈ printRows o.maxBlankLines Token.isBlank (o.indentUnit.map Token.char)
      ⟨0, 0, true⟩ (rowsOf deltas (ts.splitOn Token.newline)) :=
    (List.rdropWhile_prefix List.isEmpty _).subset (List.mem_of_mem_getLast? hrow)
  rcases trimmed_of_mem_printRows hmem with rfl | h
  · have hlast := List.rdropWhile_eq_self_iff.mp (List.rdropWhile_idempotent List.isEmpty
      (printRows o.maxBlankLines Token.isBlank (o.indentUnit.map Token.char)
        ⟨0, 0, true⟩ (rowsOf deltas (ts.splitOn Token.newline))))
    rw [hfront] at hlast
    exact absurd (by simp) (hlast (by simp))
  · exact h

theorem compactRows_printedRows : CompactRows (printedRows o deltas ts) := by
  constructor
  · intro row hrow hblank
    obtain ⟨t, ht, hink⟩ := head?_printedRows row hrow
    rw [Text.trimBy_eq_nil_iff.mp hblank t ht] at hink
    exact absurd hink (by simp)
  · intro row hrow hblank
    obtain ⟨-, t, ht, hink⟩ := getLast?_printedRows row hrow
    rw [Text.trimBy_eq_nil_iff.mp hblank t ht] at hink
    exact absurd hink (by simp)

theorem compact_printedRows (h : Shaped ts) (hne : printedRows o deltas ts ≠ []) :
    Compact (tell ([Token.newline].intercalate (printedRows o deltas ts))) := by
  have hrows : ∀ row ∈ printedRows o deltas ts, Token.newline ∉ row ∧ Shaped row :=
    fun row hrow => shaped_of_mem_printedRows h hrow
  constructor
  · obtain ⟨row, rest, hcut⟩ := List.exists_cons_of_ne_nil hne
    have hmem : row ∈ printedRows o deltas ts := by
      rw [hcut]
      exact List.mem_cons_self
    have hink : ∃ t ∈ row, t.isBlank = false := head?_printedRows row (by rw [hcut]; rfl)
    obtain ⟨l, ls, hlines⟩ := List.exists_cons_of_ne_nil (List.splitOn_ne_nil '\n' (tell row))
    obtain ⟨c, hc, hcink⟩ := exists_ink_line (hrows row hmem).1 (hrows row hmem).2 hink hlines
    obtain ⟨tail, htail, -⟩ := exists_tail hlines
    obtain ⟨back, htell, -⟩ := tell_intercalate_cons row rest
    have hl : ∀ d ∈ l, decide (d ≠ '\n') = true := by
      intro d hd
      rw [decide_eq_true_eq]
      rintro rfl
      exact Text.not_mem_of_mem_splitOn (hlines ▸ List.mem_cons_self) hd
    refine ⟨c, ?_, hcink⟩
    rw [hcut, htell, htail, List.append_assoc, List.takeWhile_append_of_pos hl]
    exact List.mem_append_left _ hc
  · obtain ⟨front, row, hcut⟩ : ∃ front row, printedRows o deltas ts = front ++ [row] :=
      ⟨_, _, (List.dropLast_append_getLast hne).symm⟩
    have hmem : row ∈ printedRows o deltas ts := by
      rw [hcut]
      simp
    obtain ⟨hend, t, ht, hink⟩ := getLast?_printedRows row (by rw [hcut]; simp)
    obtain ⟨before, htell, -⟩ := tell_intercalate_append front row
    have htrim := Region.tell_rdropWhile (hrows row hmem).2
    rw [hend] at htrim
    have hrow : tell row ≠ [] := by
      obtain ⟨l, ls, hlines⟩ := List.exists_cons_of_ne_nil (List.splitOn_ne_nil '\n' (tell row))
      obtain ⟨c, hc, -⟩ :=
        exists_ink_line (hrows row hmem).1 (hrows row hmem).2 ⟨t, ht, hink⟩ hlines
      intro he
      rw [he, List.splitOn_nil] at hlines
      rw [← (List.cons.inj hlines).1] at hc
      simp at hc
    rw [hcut, htell, List.getLast?_append_of_ne_nil _ hrow, List.getLast?_eq_some_getLast hrow]
    intro c hc
    rw [← Option.some.inj hc, ← Bool.not_eq_true]
    exact List.rdropWhile_eq_self_iff.mp htrim.symm hrow

/-- **A newline at the end of a text is a token**, as a region ends with ink. -/
theorem tokens_concat_newline (core : List Char) :
    ∃ us, Region.tokens (Region.pieces .document (core ++ ['\n'])) = us ++ [Token.newline] ∧
      tell us = core := by
  have htell := Region.tell_pieces .document (core ++ ['\n'])
  have hne : Region.tokens (Region.pieces .document (core ++ ['\n'])) ≠ [] := by
    intro he
    rw [he, Region.tell_nil] at htell
    simp at htell
  obtain ⟨us, t, hcut⟩ : ∃ us t,
      Region.tokens (Region.pieces .document (core ++ ['\n'])) = us ++ [t] :=
    ⟨_, _, (List.dropLast_append_getLast hne).symm⟩
  have hlast : (tell us ++ tell [t]).getLast? = some '\n' := by
    rw [← Region.tell_append, ← hcut, htell]
    simp
  cases t with
  | char c =>
    rw [Region.tell_char_cons, Region.tell_nil, List.getLast?_append_of_ne_nil _ (by simp)]
      at hlast
    obtain rfl : c = '\n' := Option.some.inj hlast
    rw [hcut, Region.tell_append] at htell
    exact ⟨us, hcut, (List.append_inj' htell rfl).1⟩
  | code raw =>
    obtain ⟨form, inner, rfl⟩ : ∃ (form : Form) (inner : List Char),
        raw = form.opener ++ (inner ++ form.closer) := by
      apply Region.shaped_tokens .document (core ++ ['\n']) raw
      rw [hcut]
      simp
    rw [Region.tell_code_cons, Region.tell_nil, List.append_nil,
      List.getLast?_append_of_ne_nil _ (by simp [Form.opener]), ← List.append_assoc,
      Region.getLast?_closer] at hlast
    exact absurd (Option.some.inj hlast) (by decide)

theorem exists_closedRows_of_compact {cs core : List Char} (h : Compact core)
    (hcs : cs = core ++ if o.endWithNewline then ['\n'] else []) :
    ∃ rs, rows cs = closedRows o rs ∧ CompactRows rs := by
  have hfree : ∀ {us : List Token}, ∀ row ∈ us.splitOn Token.newline, Token.newline ∉ row :=
    fun row hrow => Text.not_mem_of_mem_splitOn hrow
  cases hend : o.endWithNewline with
  | false =>
    rw [hend, if_neg (by simp), List.append_nil] at hcs
    refine ⟨rows cs, ?_, ?_⟩
    · rw [closedRows, if_neg (Region.rows_ne_nil cs), hend, if_neg (by simp)]
    apply compactRows_of_compact hfree
    rw [← rows, Region.tell_intercalate_rows, hcs]
    exact h
  | true =>
    rw [hend, if_pos rfl] at hcs
    obtain ⟨us, hus, hcore⟩ := tokens_concat_newline core
    have hne : us.splitOn Token.newline ≠ [] := List.splitOn_ne_nil _ _
    refine ⟨us.splitOn Token.newline, ?_, ?_⟩
    · rw [closedRows, if_neg hne, hend, if_pos rfl, hcs, rows, hus,
        List.splitOn_append_cons_self, List.splitOn_nil]
    · apply compactRows_of_compact hfree
      rw [List.intercalate_splitOn, hcore]
      exact h

theorem ne_nil_of_mem_getLast?_printedRows :
    ∀ row ∈ (printedRows o deltas ts).getLast?, row ≠ [] := by
  intro row hrow
  obtain ⟨-, t, ht, -⟩ := getLast?_printedRows row hrow
  exact List.ne_nil_of_mem ht

theorem inkBy_closedRows :
    Text.inkBy Token.isBlank Token.newline
        ([Token.newline].intercalate (closedRows o (printedRows o deltas ts))) =
      Text.inkBy Token.isBlank Token.newline ts := by
  rw [← closeLines_eq ne_nil_of_mem_getLast?_printedRows]
  exact inkBy_layOut (Region.isBlank_of_mem_map_char (isBlank_of_mem_indentUnit o))
    (newline_not_mem_unit (newline_not_mem_indentUnit o))

/-- **The printed document, row by row.** -/
theorem printedText_eq_tell (o : PrinterOptions) (cs : List Char) :
    printedText o cs =
      tell ([Token.newline].intercalate (closedRows o (printedRows o (lineDeltas (protect cs).text)
        ((Region.tokens (Region.pieces .document cs)).map squeeze)))) := by
  rw [printedText_eq, layOut, closeLines_eq ne_nil_of_mem_getLast?_printedRows]

/-- The rows of a printed document whose squeezed regions are found again. -/
theorem rows_printedText (o : PrinterOptions) {cs : List Char}
    (h : Scans true ((Region.tokens (Region.pieces .document cs)).map squeeze)) :
    rows (printedText o cs) = closedRows o (printedRows o (lineDeltas (protect cs).text)
      ((Region.tokens (Region.pieces .document cs)).map squeeze)) := by
  have hshape : Shaped ((Region.tokens (Region.pieces .document cs)).map squeeze) :=
    shaped_map_squeeze (Region.shaped_tokens .document cs)
  rw [printedText_eq_tell]
  exact rows_of_scans (closedRows_ne_nil _ _)
    (newline_not_mem_closedRows fun row hrow => (shaped_of_mem_printedRows hshape hrow).1)
    (Region.scans_of_ink h hshape inkBy_closedRows.symm)

/-- **The rows of a printed document.** -/
theorem exists_closedRows (o : PrinterOptions) (cs : List Char) :
    ∃ rs, rows (printedText o cs) = closedRows o rs ∧ CompactRows rs := by
  rw [printedText_eq_tell]
  have hshape : Shaped ((Region.tokens (Region.pieces .document cs)).map squeeze) :=
    shaped_map_squeeze (Region.shaped_tokens .document cs)
  by_cases hne : printedRows o (lineDeltas (protect cs).text)
      ((Region.tokens (Region.pieces .document cs)).map squeeze) = []
  · refine ⟨[], ?_, by constructor <;> simp⟩
    rw [hne, closedRows, if_pos rfl, List.intercalate_singleton, Region.tell_nil, rows,
      Region.pieces, Region.tokens_nil, List.splitOn_nil]
  · apply exists_closedRows_of_compact (compact_printedRows hshape hne)
    rw [closedRows, if_neg hne]
    split
    · rw [intercalate_append_nil hne, Region.tell_append]
      rfl
    · rw [List.append_nil]

end Document

end TwigTemplate.Layout
