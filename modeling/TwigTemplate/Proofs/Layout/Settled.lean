import TwigTemplate.Proofs.Layout.Reindented
import TwigTemplate.Proofs.Layout.Rows

/-!
# Documents that formatting leaves alone

Formatting a document with squeezed regions lays out its rows and indents them.

* `Settled`: what a formatted document must be like for a second run to leave it
  alone.
* `printedText_eq`: printing a document is laying out its tokens.
* `writtenAgain_iff`: **rows that were written once are written again as they are**
  exactly when they are settled.
-/

namespace TwigTemplate.Layout

open Text (isBlank trimBy inkOf inkBy)
open Region (Token Scans tell rows squeeze Shaped)

/-- Rows, each with the depth changes of its element tags, that stand at the depth of
their blocks and elements, without blanks at the end.  Blank rows stand anywhere. -/
def Stands (unit : List Char) (level depth : Nat) : List (List Token × List Int) → Prop
  | [] => True
  | (row, deltas) :: rest =>
    if row.all Token.isBlank then Stands unit level depth rest
    else
      row = indentBy (unit.map Token.char)
          ((lineDepth level (rowDeltas row)).1 + (lineDepth depth deltas).1)
          (trimBy Token.isBlank row) ∧
        Stands unit (lineDepth level (rowDeltas row)).2 (lineDepth depth deltas).2 rest

/-- A document that formatting finds nothing to change in, once it has been
formatted. -/
structure Settled (o : ReflowOptions) (cs : List Char) : Prop where
  /-- No region has blanks to squeeze. -/
  squeezed : ∀ raw, .code raw ∈ Region.tokens (Region.pieces .document cs) →
    Region.normalizeSpacing raw = raw
  /-- No row has blanks at its end. -/
  trimmed : ∀ row ∈ rows cs, ∀ t ∈ row.getLast?, t.isBlank = false
  /-- No more empty rows than are kept follow one another. -/
  capped : ¬ List.replicate (o.printer.maxBlankLines + 1) [] <:+: (rows cs).dropLast
  /-- When the printer's indentation is kept, the rows still stand where they would
  be printed. -/
  stands : o.markupIndent = true →
    Stands o.printer.indentUnit 0 0 (rowsOf (lineDeltas (protect cs).text) (rows cs))

/-! ### Printing tokens -/

theorem Slot.map_token_cut_regions (cs : List Char) :
    (Slot.cut .document cs).map (Slot.token (Slot.fill (protect cs).regions)) =
      (Region.tokens (Region.pieces .document cs)).map squeeze := by
  rw [Slot.map_token_regions fun _ hn => hn, Slot.map_token_cut]

/-- **Printing a document is laying out its tokens**, with the regions squeezed. -/
theorem printedText_eq (o : PrinterOptions) (cs : List Char) :
    printedText o cs =
      tell (layOut o Token.isBlank Token.newline (o.indentUnit.map Token.char)
        (lineDeltas (protect cs).text)
        ((Region.tokens (Region.pieces .document cs)).map squeeze)) := by
  have hunit : (o.indentUnit.map Slot.plain).map (Slot.token (Slot.fill (protect cs).regions)) =
      o.indentUnit.map Token.char := by
    rw [List.map_map]
    rfl
  rw [printedText, ← Slot.tell_map_token, printedSlots,
    map_layOut Slot.isBlank_token Slot.token_eq_newline, hunit, Slot.map_token_cut_regions]

/-- The rows of a list that was laid out. -/
def closedRows (o : PrinterOptions) (rs : List (List Token)) : List (List Token) :=
  if rs = [] then [[]] else if o.endWithNewline then rs ++ [[]] else rs

theorem closedRows_ne_nil (o : PrinterOptions) (rs : List (List Token)) :
    closedRows o rs ≠ [] := by
  rw [closedRows]
  split
  · simp
  · split
    · simp
    · assumption

theorem mem_closedRows {o : PrinterOptions} {rs : List (List Token)} {row : List Token}
    (h : row ∈ closedRows o rs) : row = [] ∨ row ∈ rs := by
  rw [closedRows] at h
  split at h
  · exact Or.inl (List.mem_singleton.mp h)
  · split at h
    · exact (List.mem_append.mp h).symm.imp_left List.mem_singleton.mp
    · exact Or.inr h

theorem newline_not_mem_closedRows {o : PrinterOptions} {rs : List (List Token)}
    (h : ∀ row ∈ rs, Token.newline ∉ row) : ∀ row ∈ closedRows o rs, Token.newline ∉ row := by
  intro row hrow
  rcases mem_closedRows hrow with rfl | hmem
  · simp
  · exact h row hmem

theorem intercalate_append_nil {rs : List (List Token)} (h : rs ≠ []) :
    [Token.newline].intercalate (rs ++ [[]]) =
      [Token.newline].intercalate rs ++ [Token.newline] := by
  induction rs with
  | nil => exact absurd rfl h
  | cons row rs ih =>
    by_cases hrs : rs = []
    · rw [hrs]
      simp
    · rw [List.cons_append, List.intercalate_cons_of_ne_nil (by simp), ih hrs,
        List.intercalate_cons_of_ne_nil hrs, List.append_assoc, List.append_assoc,
        List.append_assoc]

theorem closeLines_eq {o : PrinterOptions} {rs : List (List Token)}
    (hlast : ∀ row ∈ rs.getLast?, row ≠ []) :
    closeLines o Token.newline rs = [Token.newline].intercalate (closedRows o rs) := by
  rw [closeLines, closedRows]
  by_cases hrs : rs = []
  · rw [if_pos hrs, hrs]
    cases o.endWithNewline <;> rfl
  · have hne : ([Token.newline].intercalate rs).isEmpty = false := by
      have hmem := hlast _ (List.getLast?_eq_some_getLast hrs)
      have hin : rs.getLast hrs <:+: [Token.newline].intercalate rs :=
        Text.infix_intercalate_of_mem (List.getLast_mem hrs)
      rw [List.isEmpty_eq_false_iff]
      intro he
      rw [he, List.infix_nil] at hin
      exact hmem hin
    rw [if_neg hrs, hne, ← intercalate_append_nil hrs]
    cases o.endWithNewline <;> rfl

/-! ### A row that is written twice -/

section Row

variable {unit : List Char} {keepIndent : Bool}

theorem head?_trimmed {row y : List Token} {t : Token} (h : trimBy Token.isBlank row = t :: y) :
    t.isBlank = false := by
  have hmem : t ∈ (trimBy Token.isBlank row).head? := by
    rw [h]
    rfl
  exact Text.head?_trimBy t hmem

theorem all_isBlank_iff (row : List Token) :
    row.all Token.isBlank = true ↔ trimBy Token.isBlank row = [] := by
  rw [List.all_eq_true, Text.trimBy_eq_nil_iff]

theorem writtenRow_indentBy (hunit : ∀ c ∈ unit, isBlank c = true) {row : List Token}
    (hclip : Region.clipRow (trimBy Token.isBlank row) = trimBy Token.isBlank row)
    (hink : trimBy Token.isBlank row ≠ []) (level depth : Nat) :
    writtenRow unit keepIndent level
        (indentBy (unit.map Token.char) depth (trimBy Token.isBlank row)) =
      indentBy (unit.map Token.char) (if keepIndent then level + depth else level)
        (trimBy Token.isBlank row) := by
  obtain ⟨t, y, hrow⟩ := List.exists_cons_of_ne_nil hink
  have ht := head?_trimmed hrow
  have hunits := isBlank_of_mem_indentBy hunit depth
  have hnot : ¬ (indentBy (unit.map Token.char) depth (trimBy Token.isBlank row)).all
      Token.isBlank = true := by
    rw [all_isBlank_iff, trimBy_indentBy (Region.isBlank_of_mem_map_char hunit), Text.trimBy_trimBy]
    exact hink
  rw [writtenRow, if_neg hnot]
  cases keepIndent with
  | true =>
    have hone : ∃ s ∈ trimBy Token.isBlank row, s.isBlank = false :=
      ⟨t, by rw [hrow]; exact List.mem_cons_self, ht⟩
    rw [if_pos rfl, if_pos rfl, indentBy_eq _ depth,
      Region.clipRow_append_left (Region.oneLine_of_blank hunits) hone, hclip, ← indentBy_eq,
      indentBy_indentBy]
  | false =>
    rw [if_neg (by simp), if_neg (by simp), indentBy_eq _ depth, hrow,
      Text.dropWhile_blank_append hunits ht, ← hrow, hclip]

theorem rdropWhile_trimBy (row : List Token) :
    (trimBy Token.isBlank row).rdropWhile Token.isBlank = trimBy Token.isBlank row := by
  rw [trimBy, List.rdropWhile_idempotent]

theorem rdropWhile_indentBy {row : List Token} (hink : ∃ t ∈ row, t.isBlank = false)
    (level : Nat) :
    (indentBy (unit.map Token.char) level row).rdropWhile Token.isBlank =
      indentBy (unit.map Token.char) level (row.rdropWhile Token.isBlank) := by
  rw [indentBy_eq, Text.rdropWhile_append_of_ink hink, ← indentBy_eq]

theorem exists_ink_trimBy {row : List Token} (h : trimBy Token.isBlank row ≠ []) :
    ∃ t ∈ trimBy Token.isBlank row, t.isBlank = false := by
  obtain ⟨t, y, hrow⟩ := List.exists_cons_of_ne_nil h
  exact ⟨t, by rw [hrow]; exact List.mem_cons_self, head?_trimmed hrow⟩

theorem clipRow_trimBy_writtenRow (hunit : ∀ c ∈ unit, isBlank c = true) (level : Nat)
    (row : List Token) :
    Region.clipRow (trimBy Token.isBlank (writtenRow unit keepIndent level row)) =
      trimBy Token.isBlank (writtenRow unit keepIndent level row) := by
  rw [writtenRow]
  split
  · rfl
  · rw [trimBy_indentBy (Region.isBlank_of_mem_map_char hunit), Region.clipRow_trimBy_clipRow]

theorem exists_dropWhile_cons {row : List Token} (h : ¬ row.all Token.isBlank = true) :
    ∃ t ts, row.dropWhile Token.isBlank = t :: ts ∧ t.isBlank = false := by
  have hne : row.dropWhile Token.isBlank ≠ [] := fun he =>
    h (List.all_eq_true.mpr (List.dropWhile_eq_nil_iff.mp he))
  obtain ⟨t, ts, hdrop⟩ := List.exists_cons_of_ne_nil hne
  have hhead := List.head_dropWhile_not Token.isBlank (l := row) hne
  refine ⟨t, ts, hdrop, ?_⟩
  simpa [hdrop] using hhead

/-- A row that keeps no indentation of its own begins where its blocks say. -/
theorem writtenRow_eq (hunit : ∀ c ∈ unit, isBlank c = true) {level : Nat} {row : List Token}
    (hink : trimBy Token.isBlank (writtenRow unit false level row) ≠ []) :
    (writtenRow unit false level row).rdropWhile Token.isBlank =
      indentBy (unit.map Token.char) level
        (trimBy Token.isBlank (writtenRow unit false level row)) := by
  by_cases hblank : row.all Token.isBlank = true
  · rw [writtenRow, if_pos hblank] at hink
    exact absurd rfl hink
  · obtain ⟨s, y, hdrop, hs⟩ := exists_dropWhile_cons hblank
    obtain ⟨u, us, hclip, hu⟩ := Region.exists_clipRow_cons hs y
    have hone : ∃ v ∈ u :: us, v.isBlank = false := ⟨u, List.mem_cons_self, hu⟩
    have htrim : trimBy Token.isBlank (u :: us) = (u :: us).rdropWhile Token.isBlank := by
      rw [trimBy, List.dropWhile_cons_of_neg (by simp [hu])]
    rw [writtenRow, if_neg hblank, if_neg (by simp), hdrop, hclip, rdropWhile_indentBy hone,
      trimBy_indentBy (Region.isBlank_of_mem_map_char hunit), htrim]

/-- **Printing and writing a written row once more changes nothing** exactly when the
row does not end with blanks and, as far as it keeps indentation, has that of the
printer. -/
theorem writtenRow_again_iff (hunit : ∀ c ∈ unit, isBlank c = true) {level depth : Nat}
    {row r : List Token} (hr : r = writtenRow unit keepIndent level row)
    (hink : trimBy Token.isBlank r ≠ []) :
    writtenRow unit keepIndent level
        (indentBy (unit.map Token.char) depth (trimBy Token.isBlank r)) = r ↔
      r.rdropWhile Token.isBlank = r ∧
        (keepIndent = true →
          r = indentBy (unit.map Token.char) (level + depth) (trimBy Token.isBlank r)) := by
  have hclip : Region.clipRow (trimBy Token.isBlank r) = trimBy Token.isBlank r := by
    rw [hr, clipRow_trimBy_writtenRow hunit]
  rw [writtenRow_indentBy hunit hclip hink]
  cases keepIndent with
  | true =>
    rw [if_pos rfl]
    constructor
    · intro h
      refine ⟨?_, fun _ => h.symm⟩
      conv_lhs => rw [← h]
      rw [rdropWhile_indentBy (exists_ink_trimBy hink), rdropWhile_trimBy, h]
    · rintro ⟨-, h⟩
      exact (h rfl).symm
  | false =>
    rw [if_neg (by simp)]
    have hend : r.rdropWhile Token.isBlank =
        indentBy (unit.map Token.char) level (trimBy Token.isBlank r) := by
      rw [hr] at hink ⊢
      exact writtenRow_eq hunit hink
    rw [← hend]
    exact ⟨fun h => ⟨h, fun he => absurd he (by simp)⟩, fun h => h.1⟩

end Row

/-! ### All rows, written twice -/

section Rows

variable {unit : List Char} {keepIndent : Bool}

theorem stands_cons_of_blank {row : List Token} (h : row.all Token.isBlank = true)
    (level depth : Nat) (deltas : List Int) (rest : List (List Token × List Int)) :
    Stands unit level depth ((row, deltas) :: rest) ↔ Stands unit level depth rest := by
  rw [Stands, if_pos h]

theorem stands_cons_of_ink {row : List Token} (h : trimBy Token.isBlank row ≠ [])
    (level depth : Nat) (deltas : List Int) (rest : List (List Token × List Int)) :
    Stands unit level depth ((row, deltas) :: rest) ↔
      row = indentBy (unit.map Token.char)
          ((lineDepth level (rowDeltas row)).1 + (lineDepth depth deltas).1)
          (trimBy Token.isBlank row) ∧
        Stands unit (lineDepth level (rowDeltas row)).2 (lineDepth depth deltas).2 rest := by
  rw [Stands, if_neg fun hall => h ((all_isBlank_iff row).mp hall)]

theorem lineDepth_nil (depth : Nat) : lineDepth depth [] = (depth, depth) := rfl

theorem blank_of_writtenRow (hunit : ∀ c ∈ unit, isBlank c = true) {level : Nat}
    {row : List Token} (h : trimBy Token.isBlank (writtenRow unit keepIndent level row) = []) :
    (∀ t ∈ row, t.isBlank = true) ∧ writtenRow unit keepIndent level row = [] := by
  rw [trimBy_writtenRow hunit, ← all_isBlank_iff] at h
  have hall : row.all Token.isBlank = true := by
    have hmap : ∀ ts : List Token, ts.all Token.isBlank = (ts.map Token.isBlank).all id := by
      intro ts
      rw [List.all_map]
      rfl
    rw [hmap, ← Region.map_isBlank_clipSpan, ← hmap]
    exact h
  refine ⟨List.all_eq_true.mp hall, ?_⟩
  rw [writtenRow, if_pos hall]

theorem length_reindentRows (level : Nat) (rs : List (List Token)) :
    (reindentRows unit keepIndent level rs).length = rs.length := by
  induction rs generalizing level with
  | nil => rfl
  | cons row rs ih => rw [reindentRows_cons, List.length_cons, List.length_cons, ih]

theorem length_printRows_le {α : Type} {p : α → Bool} {u : List α} {cap : Nat} (s : PrintState)
    (prs : List (List α × List Int)) : (printRows cap p u s prs).length ≤ prs.length := by
  induction prs generalizing s with
  | nil => exact Nat.le_refl 0
  | cons r prs ih =>
    obtain ⟨l, d⟩ := r
    rw [List.length_cons]
    by_cases hl : trimBy p l = []
    · have hrest := ih ⟨s.depth, s.blanks + 1, s.atStart⟩
      rw [printRows_cons_of_blank (Text.trimBy_eq_nil_iff.mp hl), List.length_append]
      split
      · rw [List.length_singleton]
        omega
      · rw [List.length_nil]
        omega
    · have hrest := ih ⟨(lineDepth s.depth d).2, 0, false⟩
      rw [printRows_cons_of_ink hl, List.length_cons]
      omega

theorem replicate_infix_iff {α : Type} {n k : Nat} (hk : k < n) {r : List α} (hr : r ≠ [])
    (rest : List (List α)) :
    List.replicate n [] <:+: List.replicate k [] ++ r :: rest ↔ List.replicate n [] <:+: rest := by
  constructor
  · intro h
    have hfree : r ∉ List.replicate n ([] : List α) := fun hmem =>
      hr (List.mem_replicate.mp hmem).2
    rcases Text.infix_append_cons hfree h with h | h
    · have hlen := h.length_le
      rw [List.length_replicate, List.length_replicate] at hlen
      omega
    · exact h
  · intro h
    exact h.trans ((List.suffix_cons r rest).trans (List.suffix_append _ _)).isInfix

/-- What is asked of rows that follow a number of empty ones: no long run of empty
rows, no blanks at the ends, and the indentation of the printer as far as it is kept. -/
structure SettledRows (unit : List Char) (keepIndent : Bool) (cap level : Nat) (s : PrintState)
    (prs : List (List Token × List Int)) : Prop where
  capped : ¬ List.replicate (cap + 1) [] <:+: List.replicate s.blanks [] ++ prs.map Prod.fst
  trimmed : ∀ row ∈ prs.map Prod.fst, row.rdropWhile Token.isBlank = row
  stands : keepIndent = true → Stands unit level s.depth prs

variable {cap level : Nat} {s : PrintState} {deltas : List Int} {row r : List Token}
  {prs : List (List Token × List Int)}

theorem settledRows_nil (hcap : s.blanks ≤ cap) : SettledRows unit keepIndent cap level s [] := by
  refine ⟨fun h => ?_, by simp, fun _ => trivial⟩
  have hlen := h.length_le
  rw [List.map_nil, List.append_nil, List.length_replicate, List.length_replicate] at hlen
  omega

theorem settledRows_cons_nil : SettledRows unit keepIndent cap level s (([], deltas) :: prs) ↔
    SettledRows unit keepIndent cap level ⟨s.depth, s.blanks + 1, s.atStart⟩ prs := by
  have hruns : List.replicate s.blanks ([] : List Token) ++ [] :: prs.map Prod.fst =
      List.replicate (s.blanks + 1) [] ++ prs.map Prod.fst := by
    rw [List.replicate_succ', List.append_assoc, List.singleton_append]
  constructor
  · rintro ⟨hcapped, htrimmed, hstands⟩
    rw [List.map_cons, hruns] at hcapped
    exact ⟨hcapped, fun q hq => htrimmed q (List.mem_cons_of_mem _ hq), hstands⟩
  · rintro ⟨hcapped, htrimmed, hstands⟩
    refine ⟨by rw [List.map_cons, hruns]; exact hcapped, fun q hq => ?_, hstands⟩
    rcases List.mem_cons.mp hq with rfl | hq
    · rfl
    · exact htrimmed q hq

theorem not_settledRows (hcap : cap < s.blanks) :
    ¬ SettledRows unit keepIndent cap level s prs := by
  intro h
  have hruns : List.replicate (cap + 1) ([] : List Token) <:+: List.replicate s.blanks [] := by
    have hcut : List.replicate s.blanks ([] : List Token) =
        List.replicate (cap + 1) [] ++ List.replicate (s.blanks - (cap + 1)) [] := by
      rw [List.replicate_append_replicate]
      congr 1
      omega
    rw [hcut]
    exact (List.prefix_append _ _).isInfix
  exact h.capped (hruns.trans (List.prefix_append _ _).isInfix)

theorem settledRows_cons_of_ink (hcap : s.blanks ≤ cap) (hink : trimBy Token.isBlank r ≠ []) :
    SettledRows unit keepIndent cap level s ((r, deltas) :: prs) ↔
      (r.rdropWhile Token.isBlank = r ∧ (keepIndent = true →
        r = indentBy (unit.map Token.char)
          ((lineDepth level (rowDeltas r)).1 + (lineDepth s.depth deltas).1)
          (trimBy Token.isBlank r))) ∧
      SettledRows unit keepIndent cap (lineDepth level (rowDeltas r)).2
        ⟨(lineDepth s.depth deltas).2, 0, false⟩ prs := by
  have hne : r ≠ [] := by
    rintro rfl
    exact hink rfl
  have hruns := replicate_infix_iff (Nat.lt_succ_of_le hcap) hne (prs.map Prod.fst)
  constructor
  · rintro ⟨hcapped, htrimmed, hstands⟩
    rw [List.map_cons, hruns] at hcapped
    rw [stands_cons_of_ink hink] at hstands
    refine ⟨⟨htrimmed r List.mem_cons_self, fun hk => (hstands hk).1⟩, ?_, ?_,
      fun hk => (hstands hk).2⟩
    · rw [List.replicate_zero, List.nil_append]
      exact hcapped
    · exact fun q hq => htrimmed q (List.mem_cons_of_mem _ hq)
  · rintro ⟨⟨hend, hstand⟩, hcapped, htrimmed, hstands⟩
    rw [List.replicate_zero, List.nil_append] at hcapped
    refine ⟨?_, List.forall_mem_cons.mpr ⟨hend, htrimmed⟩, fun hk => ?_⟩
    · rw [List.map_cons, hruns]
      exact hcapped
    · rw [stands_cons_of_ink hink]
      exact ⟨hstand hk, hstands hk⟩

/-- Rows that are printed and indented as they are. -/
def WrittenAgain (unit : List Char) (keepIndent : Bool) (cap level : Nat) (s : PrintState)
    (prs : List (List Token × List Int)) : Prop :=
  reindentRows unit keepIndent level (printRows cap Token.isBlank (unit.map Token.char) s prs) =
    prs.map Prod.fst

theorem writtenAgain_cons_nil (hstart : s.atStart = false) (hcap : s.blanks + 1 ≤ cap) :
    WrittenAgain unit keepIndent cap level s (([], deltas) :: prs) ↔
      WrittenAgain unit keepIndent cap level ⟨s.depth, s.blanks + 1, s.atStart⟩ prs := by
  have hwritten : writtenRow unit keepIndent (lineDepth level (rowDeltas [])).1 [] = [] := rfl
  have hdeltas : rowDeltas [] = [] := rowDeltas_of_blank (by simp)
  rw [WrittenAgain, printRows_cons_of_blank (by simp), if_pos (by simpa [hstart] using hcap),
    List.singleton_append, reindentRows_cons, hwritten, hdeltas, lineDepth_nil, List.map_cons,
    List.cons.injEq]
  exact ⟨fun h => h.2, fun h => ⟨rfl, h⟩⟩

theorem not_writtenAgain_cons_nil (hcap : cap < s.blanks + 1) :
    ¬ WrittenAgain unit keepIndent cap level s (([], deltas) :: prs) := by
  have hlen : (reindentRows unit keepIndent level (printRows cap Token.isBlank
      (unit.map Token.char) ⟨s.depth, s.blanks + 1, s.atStart⟩ prs)).length ≤ prs.length := by
    rw [length_reindentRows]
    exact length_printRows_le _ prs
  rw [WrittenAgain, printRows_cons_of_blank (by simp), if_neg (by simp; omega), List.nil_append]
  intro h
  rw [h, List.length_map, List.length_cons] at hlen
  omega

theorem writtenAgain_cons_of_ink (hunit : ∀ c ∈ unit, isBlank c = true)
    (hr : r = writtenRow unit keepIndent (lineDepth level (rowDeltas r)).1 row)
    (hink : trimBy Token.isBlank r ≠ []) :
    WrittenAgain unit keepIndent cap level s ((r, deltas) :: prs) ↔
      (r.rdropWhile Token.isBlank = r ∧ (keepIndent = true →
        r = indentBy (unit.map Token.char)
          ((lineDepth level (rowDeltas r)).1 + (lineDepth s.depth deltas).1)
          (trimBy Token.isBlank r))) ∧
      WrittenAgain unit keepIndent cap (lineDepth level (rowDeltas r)).2
        ⟨(lineDepth s.depth deltas).2, 0, false⟩ prs := by
  have hdeltas : rowDeltas (indentBy (unit.map Token.char) (lineDepth s.depth deltas).1
      (trimBy Token.isBlank r)) = rowDeltas r := by
    rw [rowDeltas_indentBy hunit, rowDeltas_trimBy]
  rw [WrittenAgain, printRows_cons_of_ink hink, reindentRows_cons, hdeltas, List.map_cons,
    List.cons.injEq, writtenRow_again_iff hunit hr hink]
  exact Iff.rfl

/-- **Rows that were written once are written again as they are** exactly when they are
settled. -/
theorem writtenAgain_iff (hunit : ∀ c ∈ unit, isBlank c = true) {rs : List (List Token)}
    (hshape : ∀ row ∈ rs, Shaped row)
    (hprs : prs.map Prod.fst = reindentRows unit keepIndent level rs) (hcap : s.blanks ≤ cap)
    (hstart : s.atStart = true → ∀ r ∈ (prs.map Prod.fst).head?, trimBy Token.isBlank r ≠ []) :
    WrittenAgain unit keepIndent cap level s prs ↔
      SettledRows unit keepIndent cap level s prs := by
  induction rs generalizing prs level s with
  | nil =>
    obtain rfl : prs = [] := List.map_eq_nil_iff.mp hprs
    exact ⟨fun _ => settledRows_nil hcap, fun _ => rfl⟩
  | cons row rs ih =>
    obtain _ | ⟨⟨r, ds⟩, prs⟩ := prs
    · rw [reindentRows_cons] at hprs
      simp at hprs
    rw [List.map_cons, reindentRows_cons] at hprs
    obtain ⟨hr, hrest⟩ := List.cons.inj hprs
    dsimp only at hr
    have hshape' : ∀ q ∈ rs, Shaped q := fun q hq => hshape q (List.mem_cons_of_mem _ hq)
    have hdeltas : rowDeltas r = rowDeltas row := by
      rw [hr, rowDeltas_writtenRow hunit (hshape row List.mem_cons_self)]
    rw [← hdeltas] at hr hrest
    by_cases hblank : trimBy Token.isBlank r = []
    · obtain rfl : r = [] := hr.trans (blank_of_writtenRow hunit (hr ▸ hblank)).2
      have hstart' : s.atStart = false := by
        rw [← Bool.not_eq_true]
        exact fun hs => hstart hs [] rfl rfl
      rw [rowDeltas_of_blank (by simp), lineDepth_nil] at hrest
      rw [settledRows_cons_nil]
      by_cases hle : s.blanks + 1 ≤ cap
      · rw [writtenAgain_cons_nil hstart' hle]
        exact ih hshape' hrest hle fun hs => absurd (hstart'.symm.trans hs) (by simp)
      · have hmore : cap < s.blanks + 1 := by omega
        exact iff_of_false (not_writtenAgain_cons_nil hmore) (not_settledRows hmore)
    · rw [writtenAgain_cons_of_ink hunit hr hblank, settledRows_cons_of_ink hcap hblank,
        ih hshape' hrest (Nat.zero_le cap) (by simp)]

end Rows

end TwigTemplate.Layout
