import TwigTemplate.Proofs.Layout.Levels

/-!
# The rows of an indented document

The rows of an indented document are the rows that were written, and they change
the depth as the rows before did.

* `rows_reindent`: **the rows of an indented document**.
* `rowDeltas_writtenRow`: a row that is written anew changes the depth as before.
-/

namespace TwigTemplate.Layout

open Text (isBlank trimBy inkOf inkBy)
open Region (Token Scans tell rows fronts clipLine clipRow clipSpan reading Shaped)

variable {unit : List Char} {keepIndent : Bool}

/-! ### Indentation in tokens -/

theorem newline_not_mem_unit (hfree : '\n' ∉ unit) : Token.newline ∉ unit.map Token.char :=
  fun hmem => hfree (Region.mem_map_char.mp hmem)

theorem isBlank_of_mem_indentBy (hunit : ∀ c ∈ unit, isBlank c = true) (level : Nat) :
    ∀ t ∈ indentBy (unit.map Token.char) level [], t.isBlank = true := by
  intro t ht
  rcases mem_indentBy ht with h | h
  · exact Region.isBlank_of_mem_map_char hunit t h
  · simp at h

theorem indentBy_eq {α : Type} (unit : List α) (level : Nat) (xs : List α) :
    indentBy unit level xs = indentBy unit level [] ++ xs := by
  rw [indentBy, indentBy, List.append_nil]

theorem indentBy_indentBy {α : Type} (unit : List α) (m n : Nat) (xs : List α) :
    indentBy unit m (indentBy unit n xs) = indentBy unit (m + n) xs := by
  rw [indentBy, indentBy, indentBy, ← List.append_assoc, ← List.flatten_append,
    List.replicate_append_replicate]

/-! ### One row -/

theorem clipSpan_append_left {w : List Token} (hw : w.all Token.oneLine = true)
    (row : List Token) : clipSpan (w ++ row) = w ++ clipSpan row := by
  rcases Region.row_cases row with hall | ⟨front, raw, back, rfl, hfront, hraw⟩
  · have hone : (w ++ row).all Token.oneLine = true := by
      rw [List.all_append, hw, hall]
      rfl
    rw [Region.clipSpan_of_oneLine hone, Region.clipSpan_of_oneLine hall]
  · have hone : (w ++ front).all Token.oneLine = true := by
      rw [List.all_append, hw, hfront]
      rfl
    rw [← List.append_assoc, Region.clipSpan_append hone hraw, Region.clipSpan_append hfront hraw,
      List.append_assoc]

theorem trimBy_writtenRow (hunit : ∀ c ∈ unit, isBlank c = true) (level : Nat)
    (row : List Token) :
    trimBy Token.isBlank (writtenRow unit keepIndent level row) =
      trimBy Token.isBlank (clipSpan row) := by
  have hdrop : trimBy Token.isBlank (clipSpan (row.dropWhile Token.isBlank)) =
      trimBy Token.isBlank (clipSpan row) := by
    have hblank : ∀ t ∈ row.takeWhile Token.isBlank, t.isBlank = true :=
      fun _ ht => List.mem_takeWhile_imp ht
    conv_rhs => rw [← List.takeWhile_append_dropWhile (p := Token.isBlank) (l := row)]
    rw [clipSpan_append_left (Region.oneLine_of_blank hblank), Text.trimBy_append_left hblank]
  rw [writtenRow]
  by_cases hblank : row.all Token.isBlank = true
  · have hall := List.all_eq_true.mp hblank
    rw [if_pos hblank, Region.clipSpan_of_oneLine (Region.oneLine_of_blank hall),
      Text.trimBy_eq_nil_iff.mpr hall]
    rfl
  · rw [if_neg hblank, trimBy_indentBy (Region.isBlank_of_mem_map_char hunit),
      Region.trimBy_clipRow]
    cases keepIndent with
    | true => rfl
    | false => exact hdrop

theorem newline_not_mem_clipSpan {row : List Token} (h : Token.newline ∉ row) :
    Token.newline ∉ clipSpan row := by
  rcases Region.row_cases row with hall | ⟨front, raw, back, rfl, hfront, hraw⟩
  · rw [Region.clipSpan_of_oneLine hall]
    exact h
  · rw [Region.clipSpan_append hfront hraw]
    simp only [List.mem_append, List.mem_cons, not_or] at h ⊢
    exact ⟨h.1, by simp [Token.newline], h.2.2⟩

theorem newline_not_mem_clipRow {row : List Token} (h : Token.newline ∉ row) :
    Token.newline ∉ clipRow row := by
  rw [clipRow]
  split
  · exact fun hmem => h ((List.rdropWhile_prefix Token.isBlank row).subset hmem)
  · exact newline_not_mem_clipSpan h

theorem newline_not_mem_writtenRow (hfree : '\n' ∉ unit) {row : List Token}
    (h : Token.newline ∉ row) (level : Nat) :
    Token.newline ∉ writtenRow unit keepIndent level row := by
  rw [writtenRow]
  split
  · simp
  · intro hmem
    rcases mem_indentBy hmem with hmem | hmem
    · exact newline_not_mem_unit hfree hmem
    · refine newline_not_mem_clipRow ?_ hmem
      split
      · exact h
      · exact fun hin => h ((List.dropWhile_suffix Token.isBlank).subset hin)

theorem shaped_clipSpan {row : List Token} (h : Shaped row) : Shaped (clipSpan row) := by
  rcases Region.row_cases row with hall | ⟨front, raw, back, rfl, hfront, hraw⟩
  · rw [Region.clipSpan_of_oneLine hall]
    exact h
  · rw [Region.clipSpan_append hfront hraw]
    intro other hmem
    rcases List.mem_append.mp hmem with hmem | hmem
    · exact h other (List.mem_append_left _ hmem)
    · rcases List.mem_cons.mp hmem with he | hmem
      · obtain rfl : other = clipLine raw := by simpa using he
        obtain ⟨form, inner, rfl⟩ := h raw (by simp)
        exact ⟨form, clipLine inner, Region.clipLine_region (Region.newline_mem_inner hraw)⟩
      · exact h other (List.mem_append_right _ (List.mem_cons_of_mem _ hmem))

/-! ### Depth changes -/

theorem codeDeltas_clipLine {form : Form} {inner : List Char}
    (h : '\n' ∈ form.opener ++ (inner ++ form.closer)) :
    codeDeltas (clipLine (form.opener ++ (inner ++ form.closer))) =
      codeDeltas (form.opener ++ (inner ++ form.closer)) := by
  obtain ⟨hkind, hmarks⟩ := Region.reading_clipLine h
  rw [codeDeltas, codeDeltas, codeEvent?, codeEvent?, hkind, Statement.role_eq_of_marks hmarks]

theorem rowDeltas_indentBy (hunit : ∀ c ∈ unit, isBlank c = true) (level : Nat)
    (row : List Token) : rowDeltas (indentBy (unit.map Token.char) level row) = rowDeltas row := by
  rw [rowDeltas, indentBy_eq, Region.fronts_blank_append (isBlank_of_mem_indentBy hunit level),
    rowDeltas]

theorem rowDeltas_trimBy (row : List Token) :
    rowDeltas (trimBy Token.isBlank row) = rowDeltas row := by
  rw [rowDeltas, Region.fronts_trimBy, rowDeltas]

theorem rowDeltas_of_blank {row : List Token} (h : ∀ t ∈ row, t.isBlank = true) :
    rowDeltas row = [] := by
  rw [rowDeltas, Region.fronts_of_oneLine (Region.oneLine_of_blank h), Region.codesOf_blank h]
  rfl

theorem rowDeltas_clipRow {row : List Token} (h : Shaped row) :
    rowDeltas (clipRow row) = rowDeltas row := by
  rw [rowDeltas, rowDeltas, List.flatMap_def, List.flatMap_def, Region.map_fronts_clipRow]
  intro raw hmem hraw
  obtain ⟨form, inner, rfl⟩ := h raw hmem
  exact codeDeltas_clipLine hraw

/-- **A row that is written anew changes the depth as before.** -/
theorem rowDeltas_writtenRow (hunit : ∀ c ∈ unit, isBlank c = true) {row : List Token}
    (h : Shaped row) (level : Nat) :
    rowDeltas (writtenRow unit keepIndent level row) = rowDeltas row := by
  rw [writtenRow]
  by_cases hblank : row.all Token.isBlank = true
  · rw [if_pos hblank, rowDeltas_of_blank (List.all_eq_true.mp hblank)]
    rfl
  · rw [if_neg hblank, rowDeltas_indentBy hunit]
    cases keepIndent with
    | true => exact rowDeltas_clipRow h
    | false =>
      have hfront : ∀ t ∈ row.takeWhile Token.isBlank, t.isBlank = true :=
        fun _ ht => List.mem_takeWhile_imp ht
      rw [if_neg (by simp), rowDeltas_clipRow (h.of_mem fun t ht =>
        (List.dropWhile_suffix Token.isBlank).subset ht)]
      conv_rhs => rw [← List.takeWhile_append_dropWhile (p := Token.isBlank) (l := row)]
      rw [rowDeltas, rowDeltas, Region.fronts_blank_append hfront]

/-! ### All rows -/

theorem map_trim_reindentRows (hunit : ∀ c ∈ unit, isBlank c = true) (depth : Nat)
    (rs : List (List Token)) :
    (reindentRows unit keepIndent depth rs).map (trimBy Token.isBlank) =
      (rs.map clipSpan).map (trimBy Token.isBlank) := by
  induction rs generalizing depth with
  | nil => rfl
  | cons row rs ih =>
    rw [reindentRows_cons, List.map_cons, List.map_cons, List.map_cons, ih,
      trimBy_writtenRow hunit]

theorem mem_reindentRows {rs : List (List Token)} {level : Nat} {row : List Token}
    (h : row ∈ reindentRows unit keepIndent level rs) :
    ∃ r ∈ rs, ∃ l, row = writtenRow unit keepIndent l r := by
  induction rs generalizing level with
  | nil => simp [reindentRows] at h
  | cons r rs ih =>
    rw [reindentRows_cons] at h
    rcases List.mem_cons.mp h with h | h
    · exact ⟨r, List.mem_cons_self, _, h⟩
    · obtain ⟨q, hq, l, hrow⟩ := ih h
      exact ⟨q, List.mem_cons_of_mem _ hq, l, hrow⟩

theorem newline_not_mem_reindentRows (hfree : '\n' ∉ unit) {rs : List (List Token)}
    (hrs : ∀ row ∈ rs, Token.newline ∉ row) (depth : Nat) :
    ∀ row ∈ reindentRows unit keepIndent depth rs, Token.newline ∉ row := by
  intro row hrow
  obtain ⟨r, hr, level, rfl⟩ := mem_reindentRows hrow
  exact newline_not_mem_writtenRow hfree (hrs r hr) level

theorem shaped_intercalate {rs : List (List Token)} (h : ∀ row ∈ rs, Shaped row) :
    Shaped ([Token.newline].intercalate rs) := by
  intro raw hraw
  rcases Text.mem_of_mem_intercalate hraw with he | ⟨row, hrow, hmem⟩
  · exact absurd he (by simp [Token.newline])
  · exact h row hrow raw hmem

/-- **Rows that are indented are scanned as they stand.** -/
theorem scans_reindentRows {loose : Bool} (hunit : ∀ c ∈ unit, isBlank c = true)
    (hfree : '\n' ∉ unit) {rs : List (List Token)}
    (hrs : ∀ row ∈ rs, Token.newline ∉ row ∧ Shaped row)
    (h : Scans loose ([Token.newline].intercalate rs)) (depth : Nat) :
    Scans loose ([Token.newline].intercalate (reindentRows unit keepIndent depth rs)) := by
  have hshape : ∀ row ∈ rs, Shaped row := fun row hrow => (hrs row hrow).2
  have hclipped : Scans loose ([Token.newline].intercalate (rs.map clipSpan)) :=
    Region.scans_respaced h
      (Region.respaced_of_near (shaped_intercalate hshape) (Region.near_intercalate hshape))
  have hshape' : ∀ row ∈ rs.map clipSpan, Shaped row := by
    intro row hrow
    obtain ⟨r, hr, rfl⟩ := List.mem_map.mp hrow
    exact shaped_clipSpan (hshape r hr)
  have hline : ∀ row ∈ rs.map clipSpan, Token.newline ∉ row := by
    intro row hrow
    obtain ⟨r, hr, rfl⟩ := List.mem_map.mp hrow
    exact newline_not_mem_clipSpan (hrs r hr).1
  refine Region.scans_of_ink hclipped (shaped_intercalate hshape') ?_
  rw [Text.inkBy_intercalate _ hline, Text.inkBy_intercalate _
    (newline_not_mem_reindentRows hfree (fun row hrow => (hrs row hrow).1) depth)]
  exact (Text.inkOf_congr (map_trim_reindentRows hunit depth rs)).symm

/-- Rows that are scanned as they stand are the rows of their text. -/
theorem rows_of_scans {loose : Bool} {rs : List (List Token)} (hne : rs ≠ [])
    (hrs : ∀ row ∈ rs, Token.newline ∉ row) (h : Scans loose ([Token.newline].intercalate rs)) :
    rows (tell ([Token.newline].intercalate rs)) = rs := by
  rw [rows, (Region.tokens_pieces_of_scans h).1, List.splitOn_intercalate _ hrs hne]

theorem scans_rows (cs : List Char) : Scans true ([Token.newline].intercalate (rows cs)) := by
  rw [Region.intercalate_rows]
  exact Region.scans_document cs

theorem reindentRows_ne_nil {rs : List (List Token)} (h : rs ≠ []) (depth : Nat) :
    reindentRows unit keepIndent depth rs ≠ [] := by
  obtain ⟨row, rest, rfl⟩ := List.exists_cons_of_ne_nil h
  rw [reindentRows_cons]
  simp

/-- **The rows of an indented document are the rows that were written.** -/
theorem rows_reindent (hunit : ∀ c ∈ unit, isBlank c = true) (hfree : '\n' ∉ unit)
    (cs : List Char) :
    rows (reindent unit keepIndent cs) = reindentRows unit keepIndent 0 (rows cs) := by
  rw [reindent_eq hfree]
  apply rows_of_scans (reindentRows_ne_nil (Region.rows_ne_nil cs) 0)
  · exact newline_not_mem_reindentRows hfree (fun row hrow => (shaped_of_mem_rows hrow).1) 0
  · exact scans_reindentRows hunit hfree (fun row hrow => shaped_of_mem_rows hrow) (scans_rows cs) 0

end TwigTemplate.Layout
