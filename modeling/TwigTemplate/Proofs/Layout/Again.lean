import TwigTemplate.Proofs.Layout.Squeezed

/-!
# Formatting a document twice

A second run leaves a formatted document alone exactly when it is settled.  Block
depths, the ends of the lines, the empty lines at either end and the last newline
need no condition: the first run has put them in order for good.

* `reindent_eq_self_iff`: a second run of a document with squeezed regions, row by
  row.
* `reindent_closedRows_iff`: a second run of rows between ink.
* `reformat_again_iff`: **when formatting twice is formatting once**.
-/

namespace TwigTemplate.Layout

open Text (isBlank trimBy)
open Region (Token Scans tell rows squeeze Shaped)

variable {o : PrinterOptions} {unit : List Char} {keepIndent : Bool}

/-! ### Closed rows -/

theorem reindentRows_append_nil (level : Nat) (rs : List (List Token)) :
    reindentRows unit keepIndent level (rs ++ [[]]) =
      reindentRows unit keepIndent level rs ++ [[]] := by
  induction rs generalizing level with
  | nil => rfl
  | cons row rs ih =>
    rw [List.cons_append, reindentRows_cons, reindentRows_cons, ih, List.cons_append]

theorem reindentRows_closedRows (o : PrinterOptions) (level : Nat) (rs : List (List Token)) :
    reindentRows unit keepIndent level (closedRows o rs) =
      closedRows o (reindentRows unit keepIndent level rs) := by
  by_cases hrs : rs = []
  · subst hrs
    rfl
  · rw [closedRows, closedRows, if_neg hrs, if_neg (reindentRows_ne_nil hrs level)]
    split
    · rw [reindentRows_append_nil]
    · rfl

theorem CompactRows.reindentRows (hunit : ∀ c ∈ unit, isBlank c = true) {rs : List (List Token)}
    (h : CompactRows rs) (level : Nat) :
    CompactRows (Layout.reindentRows unit keepIndent level rs) := by
  have hink : ∀ {row : List Token} {l : Nat}, trimBy Token.isBlank row ≠ [] →
      trimBy Token.isBlank (writtenRow unit keepIndent l row) ≠ [] := by
    intro row l hrow he
    exact hrow (Text.trimBy_eq_nil_iff.mpr (blank_of_writtenRow hunit he).1)
  obtain ⟨hhead, hlast⟩ := h
  constructor
  · cases rs with
    | nil => simp [Layout.reindentRows]
    | cons row rs =>
      intro r hr
      rw [reindentRows_cons] at hr
      obtain rfl := Option.some.inj hr
      exact hink (hhead row rfl)
  · clear hhead
    induction rs generalizing level with
    | nil => simp [Layout.reindentRows]
    | cons row rs ih =>
      intro r hr
      rw [reindentRows_cons] at hr
      by_cases hrs : rs = []
      · subst hrs
        obtain rfl := Option.some.inj hr
        exact hink (hlast row rfl)
      · rw [List.getLast?_cons_of_ne_nil (reindentRows_ne_nil hrs _)] at hr
        refine ih _ ?_ r hr
        intro q hq
        apply hlast
        rw [List.getLast?_cons_of_ne_nil hrs]
        exact hq

/-! ### The second run -/

theorem rows_inj {cs ds : List Char} (h : rows cs = rows ds) : cs = ds := by
  rw [← Region.tell_intercalate_rows cs, h, Region.tell_intercalate_rows]

theorem reindent_eq_self_iff (hunit : ∀ c ∈ unit, isBlank c = true) (hfree : '\n' ∉ unit)
    {cs : List Char} (hsqueezed : ∀ raw, .code raw ∈ Region.tokens (Region.pieces .document cs) →
      Region.normalizeSpacing raw = raw) :
    reindent unit keepIndent (printedText o cs) = cs ↔
      closedRows o (reindentRows unit keepIndent 0
        (printedRows o (lineDeltas (protect cs).text)
          (Region.tokens (Region.pieces .document cs)))) = rows cs := by
  have hsame : (Region.tokens (Region.pieces .document cs)).map squeeze =
      Region.tokens (Region.pieces .document cs) := by
    refine (List.map_congr_left fun t ht => ?_).trans (List.map_id _)
    cases t with
    | char c => rfl
    | code raw => exact congrArg Token.code (hsqueezed raw ht)
  have hprinted := rows_printedText o (hsame.symm ▸ Region.scans_document cs)
  rw [hsame] at hprinted
  rw [← reindentRows_closedRows, ← hprinted, ← rows_reindent hunit hfree]
  exact ⟨fun h => congrArg rows h, fun h => rows_inj h⟩

/-! ### Rows between ink -/

theorem ne_nil_of_trimmed {row : List Token} (h : trimBy Token.isBlank row ≠ []) : row ≠ [] := by
  rintro rfl
  exact h rfl

theorem CompactRows.exists_concat {rs : List (List Token)} (h : CompactRows rs) (hne : rs ≠ []) :
    ∃ front row, rs = front ++ [row] ∧ trimBy Token.isBlank row ≠ [] := by
  have hcut := (List.dropLast_append_getLast hne).symm
  exact ⟨_, _, hcut, h.last _ (List.getLast?_eq_some_getLast hne)⟩

theorem CompactRows.printRows (hunit : ∀ c ∈ unit, isBlank c = true) {rs : List (List Token)}
    (h : CompactRows rs) (cap : Nat) (deltas : Nat → List Int) :
    CompactRows (Layout.printRows cap Token.isBlank (unit.map Token.char) ⟨0, 0, true⟩
      (rowsOf deltas rs)) := by
  constructor
  · intro row hrow hblank
    obtain ⟨t, ht, hink⟩ := head?_printRows row hrow
    rw [Text.trimBy_eq_nil_iff.mp hblank t ht] at hink
    exact absurd hink (by simp)
  · by_cases hne : rs = []
    · rw [hne]
      simp [rowsOf, Layout.printRows]
    · obtain ⟨front, row, rfl, hrow⟩ := h.exists_concat hne
      obtain ⟨before, depth, hlast⟩ := printRows_append_ink hrow (deltas front.length)
        ⟨0, 0, true⟩ (rowsOf deltas front)
      rw [rowsOf_append, hlast]
      intro r hr
      obtain rfl : indentBy (unit.map Token.char) depth (trimBy Token.isBlank row) = r := by
        simpa using hr
      rw [trimBy_indentBy (Region.isBlank_of_mem_map_char hunit), Text.trimBy_trimBy]
      exact hrow

/-- Between ink no empty row is dropped from the end, nor does the one after the last
newline count. -/
theorem printRows_closedRows (hunit : ∀ c ∈ unit, isBlank c = true) {rs : List (List Token)}
    (h : CompactRows rs) (cap : Nat) (deltas : Nat → List Int) :
    (printRows cap Token.isBlank (unit.map Token.char) ⟨0, 0, true⟩
        (rowsOf deltas (closedRows o rs))).rdropWhile List.isEmpty =
      printRows cap Token.isBlank (unit.map Token.char) ⟨0, 0, true⟩ (rowsOf deltas rs) := by
  have hkept : (printRows cap Token.isBlank (unit.map Token.char) ⟨0, 0, true⟩
      (rowsOf deltas rs)).rdropWhile List.isEmpty =
      printRows cap Token.isBlank (unit.map Token.char) ⟨0, 0, true⟩ (rowsOf deltas rs) := by
    rw [List.rdropWhile_eq_self_iff]
    intro hne hempty
    have hlast := (h.printRows hunit cap deltas).last _ (List.getLast?_eq_some_getLast hne)
    exact ne_nil_of_trimmed hlast (List.isEmpty_iff.mp hempty)
  rw [closedRows]
  split
  · next hrs =>
    rw [hrs]
    rfl
  · split
    · obtain ⟨w, hw, hall⟩ := printRows_append_blank cap (unit.map Token.char)
        (p := Token.isBlank) (l := []) (by simp) (deltas rs.length) ⟨0, 0, true⟩
        (rowsOf deltas rs)
      rw [rowsOf_append, hw, Text.rdropWhile_append_of_all _ hall, hkept]
    · exact hkept

theorem closedRows_inj {rs qs : List (List Token)} (hrs : CompactRows rs) (hqs : CompactRows qs) :
    closedRows o rs = closedRows o qs ↔ rs = qs := by
  refine ⟨fun h => ?_, fun h => by rw [h]⟩
  -- An empty row is no row between ink.
  have hno : ∀ {ps : List (List Token)}, CompactRows ps → ps ≠ [[]] := by
    rintro ps hps rfl
    exact hps.head [] rfl rfl
  rw [closedRows, closedRows] at h
  by_cases hr : rs = [] <;> by_cases hq : qs = []
  · rw [hr, hq]
  · rw [if_pos hr, if_neg hq] at h
    split at h
    · exact absurd (List.self_eq_append_left.mp h) hq
    · exact absurd h.symm (hno hqs)
  · rw [if_neg hr, if_pos hq] at h
    split at h
    · exact absurd (List.append_left_eq_self.mp h) hr
    · exact absurd h (hno hrs)
  · rw [if_neg hr, if_neg hq] at h
    split at h
    · exact List.append_cancel_right h
    · exact h

theorem subset_closedRows (o : PrinterOptions) (rs : List (List Token)) :
    ∀ row ∈ rs, row ∈ closedRows o rs := by
  intro row hrow
  rw [closedRows, if_neg (List.ne_nil_of_mem hrow)]
  split
  · exact List.mem_append_left _ hrow
  · exact hrow

/-- **Printing and indenting a formatted document once more**, between its ink. -/
theorem reindent_closedRows_iff (hunit : ∀ c ∈ unit, isBlank c = true) {cap : Nat}
    {rs : List (List Token)} (h : CompactRows rs) (hshape : ∀ row ∈ rs, Shaped row)
    (deltas : Nat → List Int) :
    closedRows o (reindentRows unit keepIndent 0
        (printRows cap Token.isBlank (unit.map Token.char) ⟨0, 0, true⟩
          (rowsOf deltas (reindentRows unit keepIndent 0 rs)))) =
        closedRows o (reindentRows unit keepIndent 0 rs) ↔
      SettledRows unit keepIndent cap 0 ⟨0, 0, true⟩
        (rowsOf deltas (reindentRows unit keepIndent 0 rs)) := by
  have hrows : CompactRows (reindentRows unit keepIndent 0 rs) := h.reindentRows hunit 0
  have hfst := map_fst_rowsOf deltas (reindentRows unit keepIndent 0 rs)
  have hagain := writtenAgain_iff (s := ⟨0, 0, true⟩) hunit hshape hfst (Nat.zero_le cap)
    fun _ => hfst.symm ▸ hrows.head
  rw [WrittenAgain, hfst] at hagain
  rw [closedRows_inj ((hrows.printRows hunit cap deltas).reindentRows hunit 0) hrows]
  exact hagain

/-! ### Settled rows -/

theorem rdropWhile_eq_self_iff_ink (row : List Token) :
    row.rdropWhile Token.isBlank = row ↔ ∀ t ∈ row.getLast?, t.isBlank = false := by
  rw [List.rdropWhile_eq_self_iff]
  constructor
  · intro h t ht
    have hne : row ≠ [] := by
      rintro rfl
      simp at ht
    rw [List.getLast?_eq_some_getLast hne] at ht
    rw [← Option.some.inj ht, ← Bool.not_eq_true]
    exact h hne
  · intro h hne hblank
    rw [h _ (List.getLast?_eq_some_getLast hne)] at hblank
    exact absurd hblank (by simp)

theorem trimmed_closedRows_iff (o : PrinterOptions) (rs : List (List Token)) :
    (∀ row ∈ closedRows o rs, ∀ t ∈ row.getLast?, t.isBlank = false) ↔
      ∀ row ∈ rs, row.rdropWhile Token.isBlank = row := by
  constructor
  · intro h row hrow
    exact (rdropWhile_eq_self_iff_ink row).mpr (h row (subset_closedRows o rs row hrow))
  · intro h row hrow
    rcases mem_closedRows hrow with rfl | hmem
    · simp
    · exact (rdropWhile_eq_self_iff_ink row).mp (h row hmem)

theorem infix_dropLast_closedRows_iff {rs : List (List Token)} (h : CompactRows rs) (n : Nat) :
    List.replicate (n + 1) [] <:+: (closedRows o rs).dropLast ↔
      List.replicate (n + 1) [] <:+: rs := by
  rw [closedRows]
  split
  · next hrs => rw [hrs, List.dropLast_singleton]
  · next hrs =>
    split
    · rw [List.dropLast_concat]
    · obtain ⟨front, row, rfl, hrow⟩ := h.exists_concat hrs
      rw [List.dropLast_concat]
      refine ⟨fun hin => hin.trans (List.prefix_append _ _).isInfix, fun hin => ?_⟩
      have hfree : row ∉ List.replicate (n + 1) [] := fun hmem =>
        ne_nil_of_trimmed hrow (List.mem_replicate.mp hmem).2
      refine (Text.infix_append_cons hfree hin).resolve_right fun hnil => ?_
      rw [List.infix_nil, List.replicate_succ] at hnil
      exact absurd hnil (by simp)

theorem stands_append_nil (deltas : List Int) (prs : List (List Token × List Int))
    (level depth : Nat) :
    Stands unit level depth (prs ++ [([], deltas)]) ↔ Stands unit level depth prs := by
  induction prs generalizing level depth with
  | nil => exact stands_cons_of_blank rfl level depth deltas []
  | cons r prs ih =>
    obtain ⟨row, d⟩ := r
    rw [List.cons_append]
    by_cases hrow : row.all Token.isBlank = true
    · rw [stands_cons_of_blank hrow, stands_cons_of_blank hrow, ih]
    · have hink : trimBy Token.isBlank row ≠ [] := fun he => hrow ((all_isBlank_iff row).mpr he)
      rw [stands_cons_of_ink hink, stands_cons_of_ink hink, ih]

theorem stands_closedRows_iff (o : PrinterOptions) (deltas : Nat → List Int)
    (rs : List (List Token)) :
    Stands unit 0 0 (rowsOf deltas (closedRows o rs)) ↔ Stands unit 0 0 (rowsOf deltas rs) := by
  rw [closedRows]
  split
  · next hrs =>
    rw [hrs]
    exact stands_cons_of_blank rfl 0 0 _ _
  · split
    · rw [rowsOf_append, stands_append_nil]
    · exact Iff.rfl

/-- What it takes for a document of rows between ink to be settled. -/
theorem settled_iff {o : ReflowOptions} {cs : List Char} {rs : List (List Token)}
    (h : CompactRows rs) (hrows : rows cs = closedRows o.printer rs) :
    Settled o cs ↔
      (∀ raw, .code raw ∈ Region.tokens (Region.pieces .document cs) →
        Region.normalizeSpacing raw = raw) ∧
      SettledRows o.printer.indentUnit o.markupIndent o.printer.maxBlankLines 0 ⟨0, 0, true⟩
        (rowsOf (lineDeltas (protect cs).text) rs) := by
  have hfst := map_fst_rowsOf (lineDeltas (protect cs).text) rs
  have htrimmed := trimmed_closedRows_iff o.printer rs
  have hcapped := infix_dropLast_closedRows_iff (o := o.printer) h o.printer.maxBlankLines
  have hstands : Stands o.printer.indentUnit 0 0
      (rowsOf (lineDeltas (protect cs).text) (closedRows o.printer rs)) ↔
      Stands o.printer.indentUnit 0 0 (rowsOf (lineDeltas (protect cs).text) rs) :=
    stands_closedRows_iff o.printer _ rs
  rw [← hrows] at htrimmed hcapped hstands
  constructor
  · rintro ⟨hsqueezed, htrim, hcap, hstand⟩
    refine ⟨hsqueezed, ?_, ?_, fun hk => hstands.mp (hstand hk)⟩
    · rw [hfst]
      exact fun hin => hcap (hcapped.mpr hin)
    · rw [hfst]
      exact htrimmed.mp htrim
  · rintro ⟨hsqueezed, hcap, htrim, hstand⟩
    rw [hfst] at hcap htrim
    exact ⟨hsqueezed, htrimmed.mpr htrim, fun hin => hcap (hcapped.mp hin),
      fun hk => hstands.mpr (hstand hk)⟩

/-! ### Formatting twice -/

/-- Printing and indenting what was printed and indented. -/
theorem reindent_printedText_iff (o : ReflowOptions) {cs out : List Char}
    (hout : reindent o.printer.indentUnit o.markupIndent (printedText o.printer cs) = out) :
    reindent o.printer.indentUnit o.markupIndent (printedText o.printer out) = out ↔
      Settled o out := by
  have hunit := isBlank_of_mem_indentUnit o.printer
  have hfree := newline_not_mem_indentUnit o.printer
  obtain ⟨rs, hprinted, hcompact⟩ := exists_closedRows o.printer cs
  have hshape : ∀ row ∈ rs, Shaped row := by
    intro row hrow
    have hmem : row ∈ rows (printedText o.printer cs) := by
      rw [hprinted]
      exact subset_closedRows o.printer rs row hrow
    exact (shaped_of_mem_rows hmem).2
  have hrows : rows out =
      closedRows o.printer (reindentRows o.printer.indentUnit o.markupIndent 0 rs) := by
    rw [← hout, rows_reindent hunit hfree, hprinted, reindentRows_closedRows]
  have hcompact' : CompactRows (reindentRows o.printer.indentUnit o.markupIndent 0 rs) :=
    hcompact.reindentRows hunit 0
  -- A document that is left alone has squeezed regions, and so has a settled one.
  have key : (∀ raw, .code raw ∈ Region.tokens (Region.pieces .document out) →
      Region.normalizeSpacing raw = raw) →
      (reindent o.printer.indentUnit o.markupIndent (printedText o.printer out) = out ↔
        Settled o out) := by
    intro hsqueezed
    have hlaid : printedRows o.printer (lineDeltas (protect out).text)
        (Region.tokens (Region.pieces .document out)) =
        printRows o.printer.maxBlankLines Token.isBlank (o.printer.indentUnit.map Token.char)
          ⟨0, 0, true⟩ (rowsOf (lineDeltas (protect out).text)
            (reindentRows o.printer.indentUnit o.markupIndent 0 rs)) := by
      rw [printedRows, printedLines, ← rows, hrows, printRows_closedRows hunit hcompact']
    rw [reindent_eq_self_iff hunit hfree hsqueezed, hlaid, hrows,
      reindent_closedRows_iff hunit hcompact hshape, settled_iff hcompact' hrows]
    exact ⟨fun h => ⟨hsqueezed, h⟩, fun h => h.2⟩
  refine ⟨fun hsame => (key fun raw hraw => ?_).mp hsame, fun h => (key h.squeezed).mpr h⟩
  apply normalizeSpacing_eq_of_printed (o := o.printer) _ hraw
  have hink : Text.inkBy isBlank '\n'
      (reindent o.printer.indentUnit o.markupIndent (printedText o.printer out)) =
      Text.inkBy isBlank '\n' (printedText o.printer out) := inkBy_reindent hunit hfree _
  rw [← hink, hsame]

/-- **When formatting twice is formatting once**: a formatted document is left alone
exactly when it is settled. -/
theorem reformat_again_iff (o : ReflowOptions) (cs : List Char) :
    ∃ out, reformat Printer.builtin o cs = .ok out ∧
      (reformat Printer.builtin o out = .ok out ↔ Settled o out) := by
  refine ⟨_, reformat_builtin o cs, ?_⟩
  rw [reformat_builtin, Except.ok.injEq]
  exact reindent_printedText_iff o rfl

/-- A quote is alone on its line until the newline after it is squeezed away.  The
second run pairs it with the next one, and finds the blanks behind that. -/
theorem reformat_again_lone_quote :
    ∃ out, reformat Printer.builtin .standard
        "\x7b\x7b '\n\x7d\x7d  foo'  \x7d\x7d".toList = .ok out ∧
      reformat Printer.builtin .standard out ≠ .ok out :=
  ⟨"\x7b\x7b ' \x7d\x7d  foo'  \x7d\x7d\n".toList, by decide +kernel, by decide +kernel⟩

end TwigTemplate.Layout
