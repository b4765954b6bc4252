import TwigTemplate.Proofs.Layout.Gaps
import TwigTemplate.Proofs.Layout.Kept
import TwigTemplate.Proofs.Layout.Tagged

/-!
# The layout of a formatted document

Where no region spans lines, every row is one line, so formatting can be followed line by line: the
printer trims and indents the rows with ink and caps the blank ones between them, indenting by
block depth rewrites the indentation alone, and neither adds a line within another.

* `Flat`: a row on one line.  `splitOn_tell`: flat rows are the lines of their text.
* `exists_indentBy_of_mem_laidRows`: every row of the formatted document is empty, or a row of the
  document, trimmed and indented.
* `gaps_laidRows`: its rows with ink are those of the document, with the gaps capped.
* `Canonical`: what the layout of a document looks like, said of its lines.
* `reformat_canonical`: **a formatted document has this layout**, whatever it looked like before.
-/

namespace TwigTemplate.Layout

open Text (isBlank trimBy newlineCount)
open Region (Token tell rows squeeze Shaped)

/-! ### Rows on one line -/

/-- A row on one line. -/
structure Flat (row : List Token) : Prop where
  newline : Token.newline ∉ row
  shaped : Shaped row
  oneLine : row.all Token.oneLine = true

section Flat

variable {row : List Token} {rs : List (List Token)}

theorem Flat.of_mem {us : List Token} (h : Flat row) (hus : ∀ t ∈ us, t ∈ row) : Flat us where
  newline hmem := h.newline (hus _ hmem)
  shaped := h.shaped.of_mem hus
  oneLine := List.all_eq_true.mpr fun _ ht => Region.oneLine_of_mem h.oneLine (hus _ ht)

theorem flat_nil : Flat [] :=
  ⟨List.not_mem_nil, fun _ hmem => absurd hmem List.not_mem_nil, rfl⟩

theorem Flat.trimBy (h : Flat row) : Flat (Text.trimBy Token.isBlank row) :=
  h.of_mem fun _ ht => Text.mem_of_mem_trimBy ht

theorem Flat.indentBy {unit : List Char} (hfree : '\n' ∉ unit) (h : Flat row) (depth : Nat) :
    Flat (Layout.indentBy (unit.map Token.char) depth row) where
  newline hmem := by
    rcases mem_indentBy hmem with hu | hr
    · exact hfree (Region.mem_map_char.mp hu)
    · exact h.newline hr
  shaped raw hmem := by
    rcases mem_indentBy hmem with hu | hr
    · simp at hu
    · exact h.shaped raw hr
  oneLine := by
    rw [List.all_eq_true]
    intro t ht
    rcases mem_indentBy ht with hu | hr
    · obtain ⟨c, -, rfl⟩ := List.mem_map.mp hu
      rfl
    · exact Region.oneLine_of_mem h.oneLine hr

theorem tell_trimBy (h : Shaped row) :
    tell (Text.trimBy Token.isBlank row) = Text.trimBy isBlank (tell row) := by
  have hdrop : Shaped (row.dropWhile Token.isBlank) :=
    h.of_mem fun _ ht => (List.dropWhile_suffix Token.isBlank).subset ht
  rw [Text.trimBy, Region.tell_rdropWhile hdrop, Region.tell_dropWhile h, Text.trimBy]

theorem tell_eq_nil_iff (h : Shaped row) : tell row = [] ↔ row = [] := by
  constructor
  · intro he
    cases row with
    | nil => rfl
    | cons t row =>
      cases t with
      | char c => simp at he
      | code raw =>
        obtain ⟨form, inner, rfl⟩ := h raw List.mem_cons_self
        simp [Form.opener] at he
  · rintro rfl
    rfl

/-- **Flat rows are the lines of their text.** -/
theorem splitOn_tell (hne : rs ≠ []) (hrs : ∀ row ∈ rs, Flat row) :
    (tell ([Token.newline].intercalate rs)).splitOn '\n' = rs.map tell := by
  have hline : ∀ row ∈ rs, (tell row).splitOn '\n' = [tell row] := fun row hrow =>
    List.splitOn_eq_singleton
      (Region.newline_not_mem_tell (hrs row hrow).newline (hrs row hrow).oneLine)
  rw [splitOn_tell_intercalate hne, List.flatMap_congr hline]
  exact List.flatMap_pure_eq_map tell rs

theorem exists_writtenRow_indentBy {unit : List Char} {keepIndent : Bool}
    (hunit : ∀ c ∈ unit, isBlank c = true) (h : Flat row)
    (hink : Text.trimBy Token.isBlank row ≠ []) (level depth : Nat) :
    ∃ next, writtenRow unit keepIndent level
        (indentBy (unit.map Token.char) depth (Text.trimBy Token.isBlank row)) =
      indentBy (unit.map Token.char) next (Text.trimBy Token.isBlank row) := by
  have hclip : Region.clipRow (Text.trimBy Token.isBlank row) = Text.trimBy Token.isBlank row := by
    rw [Region.clipRow_of_oneLine h.trimBy.oneLine, rdropWhile_trimBy]
  exact ⟨_, writtenRow_indentBy hunit hclip hink level depth⟩

end Flat

/-! ### The document with its regions squeezed -/

section Document

variable {o : ReflowOptions} {cs : List Char}

/-- A document with its template regions squeezed. -/
def squeezedText (cs : List Char) : List Char :=
  (Region.ofDocument cs).flatMap fun r =>
    if r.kind.isTemplate then Region.normalizeSpacing r.raw else r.raw

theorem squeezedText_eq (cs : List Char) :
    squeezedText cs = tell ((Region.tokens (Region.pieces .document cs)).map squeeze) := by
  rw [← Slot.map_token_cut_regions, Slot.tell_map_token, Slot.render_cut_regions]
  rfl

theorem flat_of_mem_rows (hline : ∀ raw, .code raw ∈ Region.tokens (Region.pieces .document cs) →
    '\n' ∉ raw) : ∀ row ∈ rows cs, Flat row := by
  intro row hrow
  obtain ⟨hnewline, hshape⟩ := shaped_of_mem_rows hrow
  refine ⟨hnewline, hshape, List.all_eq_true.mpr fun t ht => ?_⟩
  cases t with
  | char c => rfl
  | code raw =>
    have hraw : '\n' ∉ raw := hline raw (Text.mem_of_mem_splitOn hrow ht)
    simpa [Token.oneLine] using hraw

theorem Flat.squeeze {row : List Token} (h : Flat row) : Flat (row.map squeeze) where
  newline hmem := by
    obtain ⟨t, ht, he⟩ := List.mem_map.mp hmem
    cases t with
    | char c =>
      rw [Region.squeeze] at he
      exact h.newline (he ▸ ht)
    | code raw => exact absurd he (by simp [Region.squeeze, Token.newline])
  shaped := shaped_map_squeeze h.shaped
  oneLine := by
    rw [List.all_map, List.all_eq_true]
    intro t ht
    cases t with
    | char c => rfl
    | code raw =>
      obtain ⟨form, inner, rfl⟩ := h.shaped raw ht
      have hraw := Region.newline_not_mem_of_oneLine (Region.oneLine_of_mem h.oneLine ht)
      have hinner : '\n' ∉ inner := fun hmem =>
        hraw (List.mem_append_right _ (List.mem_append_left _ hmem))
      have hsq : '\n' ∉ Region.normalizeSpacing (form.opener ++ (inner ++ form.closer)) :=
        Region.newline_not_mem_normalizeSpacing hinner
      simpa [Token.oneLine, Region.squeeze] using hsq

section Lines

variable (hflat : ∀ row ∈ rows cs, Flat row)
include hflat

theorem flat_of_mem_map_squeeze : ∀ row ∈ (rows cs).map (List.map squeeze), Flat row := by
  intro row hrow
  obtain ⟨r, hr, rfl⟩ := List.mem_map.mp hrow
  exact (hflat r hr).squeeze

theorem splitOn_document : cs.splitOn '\n' = (rows cs).map tell := by
  rw [← splitOn_tell (Region.rows_ne_nil cs) hflat, Region.tell_intercalate_rows]

theorem splitOn_squeezedText :
    (squeezedText cs).splitOn '\n' = ((rows cs).map (List.map squeeze)).map tell := by
  have hne : (rows cs).map (List.map squeeze) ≠ [] := by
    rw [← map_rows_squeeze]
    exact List.splitOn_ne_nil _ _
  rw [← splitOn_tell hne (flat_of_mem_map_squeeze hflat), ← map_rows_squeeze,
    List.intercalate_splitOn, squeezedText_eq]

/-- **Squeezing rewrites blanks within a line**: the lines have the ink that they had. -/
theorem map_solid_splitOn_squeezedText :
    ((squeezedText cs).splitOn '\n').map Text.solid = (cs.splitOn '\n').map Text.solid := by
  rw [splitOn_squeezedText hflat, splitOn_document hflat, List.map_map, List.map_map, List.map_map]
  apply List.map_congr_left
  intro row _
  exact solid_tell_map_squeeze row

theorem newlineCount_normalizeSpacing_of_flat :
    ∀ raw ∈ templateTexts cs, newlineCount (Region.normalizeSpacing raw) = newlineCount raw := by
  intro raw hraw
  rw [templateTexts_eq] at hraw
  obtain ⟨row, hrow, hcode⟩ := List.mem_flatMap.mp hraw
  have hmem : .code raw ∈ row := Region.mem_codesOf.mp hcode
  obtain ⟨form, inner, rfl⟩ := (hflat row hrow).shaped raw hmem
  have hfree := Region.newline_not_mem_of_oneLine
    (Region.oneLine_of_mem (hflat row hrow).oneLine hmem)
  exact Region.newlineCount_normalizeSpacing fun hmem =>
    hfree (List.mem_append_right _ (List.mem_append_left _ hmem))

end Lines

/-! ### The rows of a formatted document -/

/-- The rows of a formatted document, as long as its squeezed regions are found again. -/
abbrev laidRows (o : ReflowOptions) (cs : List Char) : List (List Token) :=
  reindentRows o.printer.indentUnit o.markupIndent 0 (squeezedRows o.printer cs)

/-- Closing rows adds an empty one at most. -/
theorem gaps_closedRows (o : PrinterOptions) (rs : List (List Token)) :
    gaps 0 ((closedRows o rs).map (trimBy Token.isBlank)) =
      gaps 0 (rs.map (trimBy Token.isBlank)) := by
  have hempty : ∀ l ∈ [([] : List Token)].map (trimBy Token.isBlank), l = [] :=
    fun l hl => List.mem_singleton.mp hl
  rw [closedRows]
  split
  · next hrs => rw [hrs, ← List.nil_append [[]], List.map_append, gaps_append_empty hempty]
  · split
    · rw [List.map_append, gaps_append_empty hempty]
    · rfl

section Laid

variable (hflat : ∀ row ∈ rows cs, Flat row)
include hflat

theorem exists_indentBy_of_mem_squeezedRows {row : List Token}
    (hrow : row ∈ squeezedRows o.printer cs) :
    row = [] ∨ ∃ depth r, Flat r ∧ trimBy Token.isBlank r ≠ [] ∧
      row = indentBy (o.printer.indentUnit.map Token.char) depth (trimBy Token.isBlank r) := by
  have hprinted := (List.rdropWhile_prefix List.isEmpty _).subset hrow
  rcases exists_indentBy_of_mem_printRows hprinted with rfl | ⟨depth, r, hr, hink, rfl⟩
  · exact Or.inl rfl
  · refine Or.inr ⟨depth, r.1, ?_, hink, rfl⟩
    apply flat_of_mem_map_squeeze hflat
    rw [← map_rows_squeeze, ← map_fst_rowsOf (lineDeltas (protect cs).text) (List.splitOn _ _)]
    exact List.mem_map_of_mem hr

theorem flat_of_mem_squeezedRows : ∀ row ∈ squeezedRows o.printer cs, Flat row := by
  intro row hrow
  rcases exists_indentBy_of_mem_squeezedRows hflat hrow with rfl | ⟨depth, r, hr, -, rfl⟩
  · exact flat_nil
  · exact hr.trimBy.indentBy (newline_not_mem_indentUnit o.printer) depth

/-- **A row of a formatted document** is empty, or a row of the document with ink, trimmed and
indented. -/
theorem exists_indentBy_of_mem_laidRows {row : List Token} (hrow : row ∈ laidRows o cs) :
    row = [] ∨ ∃ depth r, Flat r ∧ trimBy Token.isBlank r ≠ [] ∧
      row = indentBy (o.printer.indentUnit.map Token.char) depth (trimBy Token.isBlank r) := by
  obtain ⟨printed, hprinted, level, rfl⟩ := mem_reindentRows hrow
  rcases exists_indentBy_of_mem_squeezedRows hflat hprinted with rfl | ⟨depth, r, hr, hink, rfl⟩
  · exact Or.inl rfl
  · obtain ⟨next, hnext⟩ := exists_writtenRow_indentBy
      (isBlank_of_mem_indentUnit o.printer) hr hink level depth
    exact Or.inr ⟨next, r, hr, hink, hnext⟩

theorem flat_of_mem_laidRows : ∀ row ∈ laidRows o cs, Flat row := by
  intro row hrow
  rcases exists_indentBy_of_mem_laidRows hflat hrow with rfl | ⟨depth, r, hr, -, rfl⟩
  · exact flat_nil
  · exact hr.trimBy.indentBy (newline_not_mem_indentUnit o.printer) depth

theorem flat_of_mem_closedRows : ∀ row ∈ closedRows o.printer (laidRows o cs), Flat row := by
  intro row hrow
  rcases mem_closedRows hrow with rfl | hrow
  · exact flat_nil
  · exact flat_of_mem_laidRows hflat row hrow

/-- The formatted document, row by row. -/
theorem reformat_eq_tell : reformat Printer.builtin o cs =
    .ok (tell ([Token.newline].intercalate (closedRows o.printer (laidRows o cs)))) := by
  have hprinted : rows (printedText o.printer cs) =
      closedRows o.printer (squeezedRows o.printer cs) :=
    (templateTexts_printedText o.printer (newlineCount_normalizeSpacing_of_flat hflat)).1
  rw [reformat_builtin, ← reindentRows_closedRows, ← hprinted,
    ← rows_reindent (isBlank_of_mem_indentUnit o.printer) (newline_not_mem_indentUnit o.printer),
    Region.tell_intercalate_rows]

/-- **The rows with ink are those of the document**, with the gaps between them capped. -/
theorem gaps_laidRows :
    gaps 0 ((closedRows o.printer (laidRows o cs)).map (trimBy Token.isBlank)) =
      capGaps o.printer.maxBlankLines
        (gaps 0 (((rows cs).map (List.map squeeze)).map (trimBy Token.isBlank))) := by
  have hunit : ∀ c ∈ o.printer.indentUnit, isBlank c = true := isBlank_of_mem_indentUnit o.printer
  -- Rows on one line lose nothing but the blanks at their ends when they are indented.
  have hclip : (squeezedRows o.printer cs).map Region.clipSpan = squeezedRows o.printer cs := by
    rw [← List.map_id (squeezedRows o.printer cs), List.map_map]
    apply List.map_congr_left
    intro row hrow
    exact Region.clipSpan_of_oneLine (flat_of_mem_squeezedRows hflat row hrow).oneLine
  rw [gaps_closedRows, laidRows, map_trim_reindentRows hunit, hclip, ← map_rows_squeeze]
  exact gaps_printedLines o.printer (Region.isBlank_of_mem_map_char hunit) _ _

end Laid

end Document

/-! ### The ends of a formatted document -/

section Ends

variable {rs : List (List Token)} {o : PrinterOptions}

theorem exists_ends_of_flat {row : List Token} (h : Flat row)
    (hink : trimBy Token.isBlank row ≠ []) :
    (∃ c r, c ≠ '\n' ∧ tell row = c :: r) ∧ ∃ r c, c ≠ '\n' ∧ tell row = r ++ [c] := by
  have hfree : '\n' ∉ tell row := Region.newline_not_mem_tell h.newline h.oneLine
  have hne : tell row ≠ [] := by
    rw [ne_eq, tell_eq_nil_iff h.shaped]
    rintro rfl
    exact hink rfl
  constructor
  · obtain ⟨c, r, hr⟩ := List.exists_cons_of_ne_nil hne
    rw [hr] at hfree
    exact ⟨c, r, fun hc => hfree (hc ▸ List.mem_cons_self), hr⟩
  · obtain ⟨r, c, hr⟩ := (List.eq_nil_or_concat (tell row)).resolve_left hne
    rw [List.concat_eq_append] at hr
    rw [hr] at hfree
    exact ⟨r, c, fun hc => hfree (hc ▸ List.mem_append_right _ List.mem_cons_self), hr⟩

theorem CompactRows.head?_tell (h : CompactRows rs) (hflat : ∀ row ∈ rs, Flat row) :
    (tell ([Token.newline].intercalate rs)).head? ≠ some '\n' := by
  cases rs with
  | nil => simp
  | cons row rs =>
    obtain ⟨⟨c, r, hc, hrow⟩, -⟩ :=
      exists_ends_of_flat (hflat row List.mem_cons_self) (h.head row rfl)
    obtain ⟨back, htell, -⟩ := tell_intercalate_cons row rs
    rw [htell, hrow]
    simpa using hc

theorem CompactRows.exists_last (h : CompactRows rs) (hflat : ∀ row ∈ rs, Flat row)
    (hne : rs ≠ []) : ∃ body c, c ≠ '\n' ∧ tell ([Token.newline].intercalate rs) = body ++ [c] := by
  obtain ⟨front, row, rfl⟩ := (List.eq_nil_or_concat rs).resolve_left hne
  rw [List.concat_eq_append] at h hflat ⊢
  obtain ⟨-, r, c, hc, hrow⟩ := exists_ends_of_flat
    (hflat row (List.mem_append_right _ List.mem_cons_self)) (h.last row (by simp))
  obtain ⟨before, htell, -⟩ := tell_intercalate_append front row
  exact ⟨before ++ r, c, hc, by rw [htell, hrow, List.append_assoc]⟩

theorem tell_closedRows (hne : rs ≠ []) :
    tell ([Token.newline].intercalate (closedRows o rs)) =
      tell ([Token.newline].intercalate rs) ++ if o.endWithNewline then ['\n'] else [] := by
  rw [closedRows, if_neg hne]
  split
  · rw [intercalate_append_nil hne, Region.tell_append]
    rfl
  · rw [List.append_nil]

end Ends

/-! ### The layout of a formatted document -/

/-- The layout of a text that is made from lines. -/
structure Canonical (o : PrinterOptions) (source : List (List Char)) (out : List Char) : Prop where
  /-- A line is empty, or units of indentation and a text that begins and ends with ink. -/
  lines : ∀ l ∈ Text.splitAt '\n' out, l = [] ∨ ∃ depth text, text ≠ [] ∧
    Text.startsBlank text = false ∧ Text.endsBlank text = false ∧
      l = indent o.indentUnit depth text
  /-- The lines with ink are those of the source, in order, and the gaps between them are capped. -/
  gaps : gaps 0 ((Text.splitAt '\n' out).map Text.trim) =
    capGaps o.maxBlankLines (gaps 0 (source.map Text.trim))
  /-- The first line is not empty. -/
  start : out.head? ≠ some '\n'
  /-- The text ends with one newline if one is asked for, and with none otherwise. -/
  ending : out ≠ [] → ∃ body c, c ≠ '\n' ∧
    out = body ++ c :: if o.endWithNewline then ['\n'] else []

section Canonical

variable {cs : List Char}

theorem tell_trimBy_ends {row : List Token} (h : Flat row) (hink : trimBy Token.isBlank row ≠ []) :
    tell (trimBy Token.isBlank row) ≠ [] ∧
      Text.startsBlank (tell (trimBy Token.isBlank row)) = false ∧
      Text.endsBlank (tell (trimBy Token.isBlank row)) = false := by
  refine ⟨mt (tell_eq_nil_iff h.trimBy.shaped).mp hink, ?_, ?_⟩
  · rw [tell_trimBy h.shaped, Text.startsBlank, Option.any_eq_false]
    exact fun c hc => by simpa using Text.head?_trimBy c hc
  · rw [tell_trimBy h.shaped, Text.endsBlank, Option.any_eq_false]
    exact fun c hc => by simpa using Text.getLast?_trimBy c hc

theorem gaps_map_trim_tell {rs : List (List Token)} (hrs : ∀ row ∈ rs, Flat row) :
    gaps 0 ((rs.map tell).map Text.trim) =
      (gaps 0 (rs.map (trimBy Token.isBlank))).map fun e => (e.1, Region.tell e.2) := by
  have hmap : (rs.map tell).map Text.trim = (rs.map (trimBy Token.isBlank)).map tell := by
    rw [List.map_map, List.map_map]
    apply List.map_congr_left
    intro row hrow
    exact (tell_trimBy (hrs row hrow).shaped).symm
  rw [hmap, gaps_map]
  intro l hl
  obtain ⟨row, hrow, rfl⟩ := List.mem_map.mp hl
  exact tell_eq_nil_iff (hrs row hrow).trimBy.shaped

/-- **A formatted document has one layout.**  Where no region spans lines, the lines of a document
with its regions squeezed have the ink of those of the document, and formatting trims those with
ink, indents each by whole units, and leaves gaps between them that are capped. -/
theorem reformat_canonical (o : ReflowOptions)
    (h : ∀ r ∈ Region.ofDocument cs, r.kind.isTemplate = true → r.spansLines = false) :
    (Text.splitAt '\n' (squeezedText cs)).map Text.solid =
        (Text.splitAt '\n' cs).map Text.solid ∧
      ∃ out, reformat Printer.builtin o cs = .ok out ∧
        Canonical o.printer (Text.splitAt '\n' (squeezedText cs)) out := by
  have hflat : ∀ row ∈ rows cs, Flat row :=
    flat_of_mem_rows fun raw hraw => newline_not_mem_of_spansLines h hraw
  have hlaid : ∀ row ∈ laidRows o cs, Flat row := flat_of_mem_laidRows hflat
  have hclosed : ∀ row ∈ closedRows o.printer (laidRows o cs), Flat row :=
    flat_of_mem_closedRows hflat
  have hcompact : CompactRows (laidRows o cs) :=
    compactRows_printedRows.reindentRows (isBlank_of_mem_indentUnit o.printer) 0
  have hlines : Text.splitAt '\n'
      (tell ([Token.newline].intercalate (closedRows o.printer (laidRows o cs)))) =
        (closedRows o.printer (laidRows o cs)).map tell := by
    rw [Text.splitAt_eq_splitOn, splitOn_tell (closedRows_ne_nil _ _) hclosed]
  rw [Text.splitAt_eq_splitOn, Text.splitAt_eq_splitOn]
  refine ⟨map_solid_splitOn_squeezedText hflat, _, reformat_eq_tell hflat, ?_, ?_, ?_, ?_⟩
  · intro l hl
    rw [hlines] at hl
    obtain ⟨row, hrow, rfl⟩ := List.mem_map.mp hl
    rcases mem_closedRows hrow with rfl | hrow
    · exact Or.inl rfl
    rcases exists_indentBy_of_mem_laidRows hflat hrow with rfl | ⟨depth, r, hr, hink, rfl⟩
    · exact Or.inl rfl
    · obtain ⟨hne, hstart, hend⟩ := tell_trimBy_ends hr hink
      exact Or.inr ⟨depth, _, hne, hstart, hend, tell_indentBy _ _ _⟩
  · rw [hlines, splitOn_squeezedText hflat, gaps_map_trim_tell hclosed,
      gaps_map_trim_tell (flat_of_mem_map_squeeze hflat), gaps_laidRows hflat, capGaps_map]
  · by_cases hne : laidRows o cs = []
    · rw [hne]
      simp [closedRows]
    · rw [tell_closedRows hne]
      obtain ⟨body, c, -, htell⟩ := hcompact.exists_last hlaid hne
      have hhead := hcompact.head?_tell hlaid
      rw [List.head?_append_of_ne_nil]
      · exact hhead
      · simp [htell]
  · intro hout
    have hne : laidRows o cs ≠ [] := by
      intro he
      rw [he] at hout
      exact hout rfl
    obtain ⟨body, c, hc, htell⟩ := hcompact.exists_last hlaid hne
    exact ⟨body, c, hc, by rw [tell_closedRows hne, htell, List.append_assoc]; rfl⟩

/-- The indentation of an element and of a block, in tabs, and empty lines at the start and between
two lines. -/
theorem reformat_canonical_nested :
    (∀ r ∈ Region.ofDocument "\n<p>\n \n\n\x7b%  if x %\x7d\n a \n".toList,
      r.kind.isTemplate = true → r.spansLines = false) ∧
    reformat Printer.builtin ⟨⟨4, true, 1, false, true, true⟩, true⟩
        "\n<p>\n \n\n\x7b%  if x %\x7d\n a \n".toList =
      .ok "<p>\n\n\t\x7b% if x %\x7d\n\t\ta\n".toList ∧
    Canonical ⟨4, true, 1, false, true, true⟩
      (Text.splitAt '\n' "\n<p>\n \n\n\x7b% if x %\x7d\n a \n".toList)
      "<p>\n\n\t\x7b% if x %\x7d\n\t\ta\n".toList := by
  have hline : ∀ r ∈ Region.ofDocument "\n<p>\n \n\n\x7b%  if x %\x7d\n a \n".toList,
      r.kind.isTemplate = true → r.spansLines = false := by decide +kernel
  have hout : reformat Printer.builtin ⟨⟨4, true, 1, false, true, true⟩, true⟩
      "\n<p>\n \n\n\x7b%  if x %\x7d\n a \n".toList =
      .ok "<p>\n\n\t\x7b% if x %\x7d\n\t\ta\n".toList := by decide +kernel
  have hsqueezed : squeezedText "\n<p>\n \n\n\x7b%  if x %\x7d\n a \n".toList =
      "\n<p>\n \n\n\x7b% if x %\x7d\n a \n".toList := by decide +kernel
  obtain ⟨-, out, hrun, hcanonical⟩ :=
    reformat_canonical ⟨⟨4, true, 1, false, true, true⟩, true⟩ hline
  rw [hsqueezed] at hcanonical
  obtain rfl := Except.ok.inj (hout.symm.trans hrun)
  exact ⟨hline, hout, hcanonical⟩

end Canonical

end TwigTemplate.Layout
