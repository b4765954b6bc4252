import TwigTemplate.Proofs.Layout.Again
import TwigTemplate.Proofs.Region.Ragged

/-!
# Which regions a formatted document keeps

Indenting rewrites the lines that do not begin inside a region, and so also the first
line of a region that goes on behind it: the blanks at the end of that line are lost.
Nothing else happens to the regions that the scan of the printed document finds, and
these are the regions that were put back unless squeezing joined two lines.

* `templateTexts_reindent`: **the regions of an indented document** are those of the
  document, the first one on each row that spans lines clipped.
* `codesOf_closedRows`: printing lays out the squeezed regions in order.
* `templateTexts_reindent_iff`: **when the regions that were put back are found again**
  in the indented document.
* `reformat_keeps_iff`: when formatting keeps the regions of a document.
-/

namespace TwigTemplate.Layout

open Text (isBlank trimBy newlineCount)
open Region (Token Scans tell rows squeeze Shaped codesOf clipSpan ragged raggedIn raggedCodes)

/-- The raw texts of the template regions of a document, in order. -/
def templateTexts (cs : List Char) : List (List Char) :=
  ((Region.ofDocument cs).filter (·.kind.isTemplate)).map (·.raw)

/-- A row whose first region that spans lines has no blanks at the end of its first
line. -/
def Flush (row : List Token) : Prop :=
  clipSpan row = row

instance : DecidablePred Flush := fun row => inferInstanceAs (Decidable (clipSpan row = row))

/-! ### Regions and rows -/

theorem codesOf_tokens (ps : List Region.Piece) :
    codesOf (Region.tokens ps) = Slot.codeTexts ps := by
  induction ps with
  | nil => rfl
  | cons p ps ih =>
    rw [Region.tokens_cons, Region.codesOf_append, ih, Region.Piece.tokens]
    by_cases hp : p.kind.isTemplate = true
    · rw [if_pos hp, Slot.codeTexts_cons_of_pos hp]
      rfl
    · rw [if_neg hp, Slot.codeTexts_cons_of_neg hp, Region.codesOf_map_char,
        List.nil_append]

theorem codesOf_intercalate (rs : List (List Token)) :
    codesOf ([Token.newline].intercalate rs) = rs.flatMap codesOf := by
  induction rs with
  | nil => rfl
  | cons row rs ih =>
    by_cases hne : rs = []
    · rw [hne, List.intercalate_singleton, List.flatMap_cons, List.flatMap_nil, List.append_nil]
    · rw [List.intercalate_cons_of_ne_nil hne, Region.codesOf_append, Region.codesOf_append, ih,
        List.flatMap_cons, List.append_assoc]
      rfl

theorem templateTexts_eq_codeTexts (cs : List Char) :
    templateTexts cs = Slot.regionTexts .document cs := by
  have hpieces : (Region.ofDocument cs).map Region.piece = Region.pieces .document cs :=
    Region.map_piece_locate ..
  rw [Slot.regionTexts, Slot.codeTexts, ← hpieces, List.filter_map, List.map_map]
  rfl

/-- **The regions of a document are those of its rows.** -/
theorem templateTexts_eq (cs : List Char) : templateTexts cs = (rows cs).flatMap codesOf := by
  rw [templateTexts_eq_codeTexts, Slot.regionTexts, ← codesOf_tokens, ← Region.intercalate_rows,
    codesOf_intercalate]

theorem protect_regions_eq (cs : List Char) :
    (protect cs).regions =
      codesOf ((Region.tokens (Region.pieces .document cs)).map squeeze) := by
  rw [Slot.protect_regions, Region.codesOf_map_squeeze, codesOf_tokens]
  rfl

theorem flatMap_codesOf_reindentRows {unit : List Char} {keepIndent : Bool}
    (hunit : ∀ c ∈ unit, isBlank c = true) (depth : Nat) (rs : List (List Token)) :
    (reindentRows unit keepIndent depth rs).flatMap codesOf =
      (rs.map clipSpan).flatMap codesOf := by
  induction rs generalizing depth with
  | nil => rfl
  | cons row rs ih =>
    rw [reindentRows_cons, List.map_cons, List.flatMap_cons, List.flatMap_cons, ih,
      ← Region.codesOf_trimBy, trimBy_writtenRow hunit, Region.codesOf_trimBy]

/-- **The regions of an indented document** are those of the document, the first region on
each row that spans lines clipped. -/
theorem templateTexts_reindent {unit : List Char} {keepIndent : Bool}
    (hunit : ∀ c ∈ unit, isBlank c = true) (hfree : '\n' ∉ unit) (cs : List Char) :
    templateTexts (reindent unit keepIndent cs) = ((rows cs).map clipSpan).flatMap codesOf := by
  rw [templateTexts_eq, rows_reindent hunit hfree, flatMap_codesOf_reindentRows hunit]

/-! ### What clipping changes -/

theorem raggedCodes_clipSpan_le (row : List Token) :
    raggedCodes (clipSpan row) ≤ raggedCodes row := by
  rcases Region.raggedCodes_clipSpan row with he | hlt
  · rw [he]
  · exact hlt.le

theorem raggedIn_flatMap_clipSpan_le (rs : List (List Token)) :
    raggedIn ((rs.map clipSpan).flatMap codesOf) ≤ raggedIn (rs.flatMap codesOf) := by
  induction rs with
  | nil => exact Nat.le_refl 0
  | cons row rs ih =>
    rw [List.map_cons, List.flatMap_cons, List.flatMap_cons, Region.raggedIn_append,
      Region.raggedIn_append]
    exact Nat.add_le_add (raggedCodes_clipSpan_le row) ih

theorem flush_of_raggedIn_le {rs : List (List Token)}
    (h : raggedIn (rs.flatMap codesOf) ≤ raggedIn ((rs.map clipSpan).flatMap codesOf)) :
    ∀ row ∈ rs, Flush row := by
  induction rs with
  | nil => simp
  | cons row rs ih =>
    rw [List.map_cons, List.flatMap_cons, List.flatMap_cons, Region.raggedIn_append,
      Region.raggedIn_append, ← raggedCodes, ← raggedCodes] at h
    have hrow := raggedCodes_clipSpan_le row
    have hrest := raggedIn_flatMap_clipSpan_le rs
    intro r hr
    rcases List.mem_cons.mp hr with rfl | hr
    · rcases Region.raggedCodes_clipSpan r with he | hlt
      · exact he
      · omega
    · exact ih (by omega) r hr

/-! ### The printed document -/

section Document

variable {o : PrinterOptions} {cs : List Char}

/-- The rows that are printed, with the regions squeezed. -/
abbrev squeezedRows (o : PrinterOptions) (cs : List Char) : List (List Token) :=
  printedRows o (lineDeltas (protect cs).text)
    ((Region.tokens (Region.pieces .document cs)).map squeeze)

theorem codesOf_filter (ts : List Token) : codesOf (ts.filter (!Token.isBlank ·)) = codesOf ts := by
  induction ts with
  | nil => rfl
  | cons t ts ih =>
    cases t with
    | char c =>
      rw [List.filter_cons]
      split
      · exact ih
      · exact ih
    | code raw =>
      rw [List.filter_cons_of_pos (by rfl)]
      exact congrArg (raw :: ·) ih

/-- **Printing lays out the squeezed regions in order.** -/
theorem codesOf_closedRows (o : PrinterOptions) (cs : List Char) :
    codesOf ([Token.newline].intercalate (closedRows o (squeezedRows o cs))) =
      (protect cs).regions := by
  have hnl : Token.newline.isBlank = true := by decide
  rw [protect_regions_eq, ← codesOf_filter, ← Text.filter_flatten_inkBy hnl, inkBy_closedRows,
    Text.filter_flatten_inkBy hnl, codesOf_filter]

/-- The ragged newlines of a printed document stand in the regions that were put back. -/
theorem ragged_printedText (o : PrinterOptions) (cs : List Char) :
    ragged (printedText o cs) = raggedIn (protect cs).regions := by
  have hshape : Shaped ((Region.tokens (Region.pieces .document cs)).map squeeze) :=
    shaped_map_squeeze (Region.shaped_tokens .document cs)
  rw [printedText_eq_tell, Region.ragged_tell, raggedCodes, codesOf_closedRows]
  intro row hrow
  rcases mem_closedRows hrow with rfl | hmem
  · exact ⟨⟨by simp, fun raw hraw => absurd hraw (by simp)⟩, rfl⟩
  · exact ⟨shaped_of_mem_printedRows hshape hmem, rdropWhile_of_mem_printedRows hmem⟩

/-- **When an indented document has the regions that were put back**: they are found
again in the printed document, and indenting clips none of them. -/
theorem templateTexts_reindent_iff {unit : List Char} {keepIndent : Bool}
    (hunit : ∀ c ∈ unit, isBlank c = true) (hfree : '\n' ∉ unit) :
    templateTexts (reindent unit keepIndent (printedText o cs)) = (protect cs).regions ↔
      templateTexts (printedText o cs) = (protect cs).regions ∧
        ∀ row ∈ rows (printedText o cs), Flush row := by
  rw [templateTexts_reindent hunit hfree]
  constructor
  · intro h
    have hclip : ∀ row ∈ rows (printedText o cs), Flush row := by
      apply flush_of_raggedIn_le
      -- A scan finds no more ragged newlines than the text has, and these all stand in the
      -- regions that were put back, which are the clipped ones.
      calc raggedIn ((rows (printedText o cs)).flatMap codesOf)
          = raggedCodes (Region.tokens (Region.pieces .document (printedText o cs))) := by
            rw [← codesOf_intercalate, Region.intercalate_rows, raggedCodes]
        _ ≤ ragged (printedText o cs) := by
            have hscan := Region.raggedCodes_le false
              (Region.tokens (Region.pieces .document (printedText o cs)))
            rwa [Region.tell_pieces] at hscan
        _ = raggedIn (protect cs).regions := ragged_printedText o cs
        _ = raggedIn (((rows (printedText o cs)).map clipSpan).flatMap codesOf) := by rw [h]
    refine ⟨?_, hclip⟩
    rw [templateTexts_eq, ← h, List.map_congr_left hclip, List.map_id']
  · rintro ⟨hfound, hclip⟩
    rw [List.map_congr_left hclip, List.map_id', ← templateTexts_eq, hfound]

/-! ### Where squeezing keeps the newlines -/

theorem clipSpan_append_right {w : List Token} (hw : ∀ t ∈ w, t.isBlank = true)
    (row : List Token) : clipSpan (row ++ w) = clipSpan row ++ w := by
  rcases Region.row_cases row with hall | ⟨front, raw, back, rfl, hfront, hraw⟩
  · rw [clipSpan_append_left hall, Region.clipSpan_of_oneLine hall,
      Region.clipSpan_of_oneLine (Region.oneLine_of_blank hw)]
  · rw [List.append_assoc, List.cons_append, Region.clipSpan_append hfront hraw,
      Region.clipSpan_append hfront hraw, List.append_assoc, List.cons_append]

theorem flush_of_blank {row : List Token} (h : ∀ t ∈ row, t.isBlank = true) : Flush row :=
  Region.clipSpan_of_oneLine (Region.oneLine_of_blank h)

theorem flush_blank_append_iff {w row : List Token} (hw : ∀ t ∈ w, t.isBlank = true) :
    Flush (w ++ row) ↔ Flush row := by
  rw [Flush, clipSpan_append_left (Region.oneLine_of_blank hw), List.append_cancel_left_eq, Flush]

theorem flush_trimBy_iff (row : List Token) : Flush (trimBy Token.isBlank row) ↔ Flush row := by
  obtain ⟨u, v, hcut, hu, hv⟩ := Text.exists_eq_append_trimBy Token.isBlank row
  conv_rhs => rw [hcut]
  rw [flush_blank_append_iff hu, Flush, Flush, clipSpan_append_right hv,
    List.append_cancel_right_eq]

theorem flush_indentBy_iff {unit : List Char} (hunit : ∀ c ∈ unit, isBlank c = true)
    (level : Nat) (row : List Token) :
    Flush (indentBy (unit.map Token.char) level row) ↔ Flush row := by
  rw [indentBy_eq, flush_blank_append_iff (isBlank_of_mem_indentBy hunit level)]

/-- Printed rows are flush when the rows are. -/
theorem flush_printRows_iff {unit : List Char} (hunit : ∀ c ∈ unit, isBlank c = true) {cap : Nat}
    {s : PrintState} {prs : List (List Token × List Int)} :
    (∀ row ∈ printRows cap Token.isBlank (unit.map Token.char) s prs, Flush row) ↔
      ∀ r ∈ prs, Flush r.1 := by
  induction prs generalizing s with
  | nil => simp [printRows]
  | cons r prs ih =>
    obtain ⟨row, deltas⟩ := r
    by_cases hrow : trimBy Token.isBlank row = []
    · have hblank := Text.trimBy_eq_nil_iff.mp hrow
      have hempty : ∀ l ∈ (if !s.atStart && s.blanks + 1 ≤ cap then [([] : List Token)] else []),
          Flush l := by
        intro l hl
        split at hl
        · rw [List.mem_singleton.mp hl]
          rfl
        · exact absurd hl (by simp)
      rw [printRows_cons_of_blank hblank, List.forall_mem_append, List.forall_mem_cons, ih]
      exact ⟨fun h => ⟨flush_of_blank hblank, h.2⟩, fun h => ⟨hempty, h.2⟩⟩
    · rw [printRows_cons_of_ink hrow, List.forall_mem_cons, List.forall_mem_cons, ih,
        flush_indentBy_iff hunit, flush_trimBy_iff]

theorem flush_closedRows_iff (o : PrinterOptions) (rs : List (List Token)) :
    (∀ row ∈ closedRows o rs, Flush row) ↔ ∀ row ∈ rs, Flush row := by
  constructor
  · exact fun h row hrow => h row (subset_closedRows o rs row hrow)
  · intro h row hrow
    rcases mem_closedRows hrow with rfl | hrow
    · rfl
    · exact h row hrow

theorem map_rows_squeeze (cs : List Char) :
    ((Region.tokens (Region.pieces .document cs)).map squeeze).splitOn Token.newline =
      (rows cs).map (List.map squeeze) := by
  apply Text.splitOn_map
  intro t
  cases t with
  | char c => simp [squeeze]
  | code raw => simp [squeeze, Token.newline]

theorem flush_squeezedRows_iff (o : PrinterOptions) (cs : List Char) :
    (∀ row ∈ squeezedRows o cs, Flush row) ↔ ∀ row ∈ rows cs, Flush (row.map squeeze) := by
  have hrows : (∀ r ∈ rowsOf (lineDeltas (protect cs).text) ((rows cs).map (List.map squeeze)),
      Flush r.1) ↔ ∀ row ∈ rows cs, Flush (row.map squeeze) := by
    have hfst := map_fst_rowsOf (lineDeltas (protect cs).text) ((rows cs).map (List.map squeeze))
    rw [← List.forall_mem_map (f := Prod.fst) (P := Flush), hfst, List.forall_mem_map]
  obtain ⟨w, hw, hempty⟩ := Text.exists_eq_rdropWhile_append List.isEmpty
    (printRows o.maxBlankLines Token.isBlank (o.indentUnit.map Token.char) ⟨0, 0, true⟩
      (rowsOf (lineDeltas (protect cs).text) ((rows cs).map (List.map squeeze))))
  rw [← hrows, ← flush_printRows_iff (isBlank_of_mem_indentUnit o), hw, List.forall_mem_append,
    squeezedRows, printedRows, printedLines, map_rows_squeeze]
  refine ⟨fun h => ⟨h, fun row hrow => ?_⟩, fun h => h.1⟩
  rw [List.isEmpty_iff.mp (hempty row hrow)]
  rfl

theorem scans_map_squeeze
    (h : ∀ raw, .code raw ∈ Region.tokens (Region.pieces .document cs) →
      newlineCount (Region.normalizeSpacing raw) = newlineCount raw) :
    Scans true ((Region.tokens (Region.pieces .document cs)).map squeeze) := by
  have hshape := Region.shaped_tokens .document cs
  refine Region.scans_respaced (Region.scans_document cs) (Region.respaced_of_near hshape ?_)
  rw [List.forall₂_map_right_iff, List.forall₂_same]
  intro t ht
  cases t with
  | char c => exact Or.inl rfl
  | code raw =>
    obtain ⟨form, inner, rfl⟩ := hshape raw ht
    exact Or.inr ⟨rfl, rfl, Region.alike_normalizeSpacing (h _ ht)⟩

/-- Where no newline is squeezed out of a region, the printed document has the regions
that were put back. -/
theorem templateTexts_printedText (o : PrinterOptions)
    (h : ∀ raw ∈ templateTexts cs, newlineCount (Region.normalizeSpacing raw) = newlineCount raw) :
    rows (printedText o cs) = closedRows o (squeezedRows o cs) ∧
      templateTexts (printedText o cs) = (protect cs).regions := by
  have hrows : rows (printedText o cs) = closedRows o (squeezedRows o cs) := by
    apply rows_printedText o
    apply scans_map_squeeze
    intro raw hraw
    apply h
    rw [templateTexts_eq_codeTexts, Slot.regionTexts, ← codesOf_tokens]
    exact Region.mem_codesOf.mpr hraw
  refine ⟨hrows, ?_⟩
  rw [templateTexts_eq, hrows, ← codesOf_intercalate, codesOf_closedRows]

end Document

/-! ### Formatting -/

/-- **When formatting keeps the regions of a document.**  The printed document must have
the squeezed regions, and each of its rows must be flush.  Where squeezing joins no
lines, it is enough that each row of the document is flush once it is squeezed. -/
theorem reformat_keeps_iff (o : ReflowOptions) (cs : List Char) :
    ∃ printed restored out,
      printAround Printer.builtin o.printer cs = .ok (printed, restored) ∧
      reformat Printer.builtin o cs = .ok out ∧
      (templateTexts out = (protect cs).regions ↔
        templateTexts restored = (protect cs).regions ∧ ∀ row ∈ rows restored, Flush row) ∧
      ((∀ raw ∈ templateTexts cs,
          newlineCount (Region.normalizeSpacing raw) = newlineCount raw) →
        (templateTexts out = (protect cs).regions ↔
          ∀ row ∈ rows cs, Flush (row.map squeeze))) := by
  have hunit := isBlank_of_mem_indentUnit o.printer
  have hfree := newline_not_mem_indentUnit o.printer
  refine ⟨_, _, _, printAround_builtin o.printer cs, reformat_builtin o cs,
    templateTexts_reindent_iff hunit hfree, fun hkept => ?_⟩
  obtain ⟨hrows, hfound⟩ := templateTexts_printedText o.printer hkept
  rw [templateTexts_reindent_iff hunit hfree, hrows, flush_closedRows_iff, flush_squeezedRows_iff]
  exact ⟨fun h => h.2, fun h => ⟨hfound, h⟩⟩

/-- A region that spans lines inside a block is kept as it is. -/
theorem reformat_keeps_span :
    (∀ raw ∈ templateTexts "\x7b% if x %\x7d\n\x7b\x7bfoo(\n a,\n  b)  \x7d\x7d\n".toList,
        newlineCount (Region.normalizeSpacing raw) = newlineCount raw) ∧
      ∃ out, reformat Printer.builtin .standard
          "\x7b% if x %\x7d\n\x7b\x7bfoo(\n a,\n  b)  \x7d\x7d\n".toList = .ok out ∧
        templateTexts out =
          ["\x7b% if x %\x7d".toList, "\x7b\x7bfoo(\n a,\n  b) \x7d\x7d".toList] := by
  have hkept : ∀ raw ∈
      templateTexts "\x7b% if x %\x7d\n\x7b\x7bfoo(\n a,\n  b)  \x7d\x7d\n".toList,
        newlineCount (Region.normalizeSpacing raw) = newlineCount raw := by decide +kernel
  obtain ⟨printed, restored, out, -, hout, -, hiff⟩ := reformat_keeps_iff .standard
    "\x7b% if x %\x7d\n\x7b\x7bfoo(\n a,\n  b)  \x7d\x7d\n".toList
  refine ⟨hkept, out, hout, ((hiff hkept).mpr (by decide +kernel)).trans ?_⟩
  decide +kernel

/-- The blanks at the end of the first line of a region that spans lines are lost. -/
theorem reformat_clips_span :
    ∃ out, reformat Printer.builtin .standard "\x7b\x7b a(  \n  b) \x7d\x7d".toList = .ok out ∧
      templateTexts out ≠ (protect "\x7b\x7b a(  \n  b) \x7d\x7d".toList).regions :=
  ⟨"\x7b\x7b a(\n  b) \x7d\x7d\n".toList, by decide +kernel, by decide +kernel⟩

end TwigTemplate.Layout
