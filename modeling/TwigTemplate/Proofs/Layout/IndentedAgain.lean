import TwigTemplate.Proofs.Layout.Again

/-!
# Indenting a document twice

Indenting writes the first line of every row anew: the blanks in front become the indentation of
its blocks, the blanks at its end are dropped.  A row that was written so changes the depth as
before and stands at its depth already, so writing it once more gives it back.

* `writtenRow_writtenRow`: a row is written once.
* `reindentRows_reindentRows`: so are all rows, from any depth on.
* `map_trim_splitOn_reindent`: **every line is the same up to blanks at its ends**, and none is
  lost.
* `reindent_again`: **indenting a document twice is indenting it once**.
-/

namespace TwigTemplate.Layout

open Text (isBlank trimBy)
open Region (Token rows Shaped clipRow)

variable {unit : List Char} {keepIndent : Bool}

/-! ### One row -/

theorem clipRow_clipRow (row : List Token) : clipRow (clipRow row) = clipRow row := by
  rcases Region.row_cases row with hall | ⟨front, raw, back, rfl, hfront, hraw⟩
  · have hone : (row.rdropWhile Token.isBlank).all Token.oneLine = true := by
      rw [List.all_eq_true]
      intro t ht
      exact Region.oneLine_of_mem hall ((List.rdropWhile_prefix Token.isBlank row).subset ht)
    rw [Region.clipRow_of_oneLine hall, Region.clipRow_of_oneLine hone, List.rdropWhile_idempotent]
  · rw [Region.clipRow_append hfront hraw,
      Region.clipRow_append hfront (Region.newline_mem_clipLine hraw), Region.clipLine_clipLine]

/-- **A row is written once.** -/
theorem writtenRow_writtenRow (hunit : ∀ c ∈ unit, isBlank c = true) (level : Nat)
    (row : List Token) :
    writtenRow unit false level (writtenRow unit false level row) =
      writtenRow unit false level row := by
  by_cases hblank : row.all Token.isBlank = true
  · rw [writtenRow, writtenRow, if_pos hblank]
    rfl
  -- A row with ink is its indentation, and a clipped text that begins with ink.
  · obtain ⟨t, ts, hdrop, ht⟩ := exists_dropWhile_cons hblank
    obtain ⟨u, us, hclip, hu⟩ := Region.exists_clipRow_cons ht ts
    have hwritten : writtenRow unit false level row =
        indentBy (unit.map Token.char) level (u :: us) := by
      rw [writtenRow, if_neg hblank, if_neg (by simp), hdrop, hclip]
    have hagain : clipRow (u :: us) = u :: us := by
      rw [← hclip, clipRow_clipRow]
    have hink : ¬ (indentBy (unit.map Token.char) level (u :: us)).all Token.isBlank = true := by
      intro hall
      have hmem : u ∈ indentBy (unit.map Token.char) level (u :: us) :=
        List.mem_append_right _ List.mem_cons_self
      rw [List.all_eq_true.mp hall u hmem] at hu
      exact absurd hu (by simp)
    have hdropped : (indentBy (unit.map Token.char) level (u :: us)).dropWhile Token.isBlank =
        u :: us := by
      rw [indentBy_eq, Text.dropWhile_blank_append (isBlank_of_mem_indentBy hunit level) hu]
    rw [hwritten, writtenRow, if_neg hink, if_neg (by simp), hdropped, hagain]

/-! ### All rows -/

/-- **Rows are written once**, from any depth on. -/
theorem reindentRows_reindentRows (hunit : ∀ c ∈ unit, isBlank c = true) {rs : List (List Token)}
    (hshape : ∀ row ∈ rs, Shaped row) (depth : Nat) :
    reindentRows unit false depth (reindentRows unit false depth rs) =
      reindentRows unit false depth rs := by
  induction rs generalizing depth with
  | nil => rfl
  | cons row rs ih =>
    have hrow : Shaped row := hshape row List.mem_cons_self
    have hrest : ∀ r ∈ rs, Shaped r := fun r hr => hshape r (List.mem_cons_of_mem _ hr)
    rw [reindentRows_cons, reindentRows_cons, rowDeltas_writtenRow hunit hrow,
      writtenRow_writtenRow hunit, ih hrest]

/-! ### Lines -/

/-- **Every line is the same up to blanks at its ends**, and none is lost. -/
theorem map_trim_splitOn_reindent (hunit : ∀ c ∈ unit, isBlank c = true) (hfree : '\n' ∉ unit)
    (cs : List Char) :
    ((reindent unit keepIndent cs).splitOn '\n').map (trimBy isBlank) =
      (cs.splitOn '\n').map (trimBy isBlank) := by
  have hne : cs.splitOn '\n' ≠ [] := List.splitOn_ne_nil _ _
  have htrim : (reindentLines ((Region.ofDocument cs).filter (·.kind.isTemplate)) unit keepIndent
      1 0 (cs.splitOn '\n')).map (trimBy isBlank) = (cs.splitOn '\n').map (trimBy isBlank) :=
    trim_reindentLines hunit _ 1 0 _
  have hlines : ∀ l ∈ reindentLines ((Region.ofDocument cs).filter (·.kind.isTemplate)) unit
      keepIndent 1 0 (cs.splitOn '\n'), '\n' ∉ l :=
    newline_not_mem_reindentLines hfree fun l hl => Text.not_mem_of_mem_splitOn hl
  have hwritten : reindentLines ((Region.ofDocument cs).filter (·.kind.isTemplate)) unit
      keepIndent 1 0 (cs.splitOn '\n') ≠ [] := by
    intro he
    rw [he, List.map_nil] at htrim
    exact hne (List.map_eq_nil_iff.mp htrim.symm)
  rw [reindent, Text.splitAt_eq_splitOn, Text.joinWith,
    List.splitOn_intercalate _ hlines hwritten, htrim]

/-! ### Documents -/

/-- **Indenting a document twice is indenting it once.**  Lines are neither lost nor added, with or
without the indentation that they have, and each changes only in the blanks at its ends. -/
theorem reindent_again (hunit : ∀ c ∈ unit, c = ' ' ∨ c = '\t') (cs : List Char) :
    reindent unit false (reindent unit false cs) = reindent unit false cs ∧
      ∀ keepIndent : Bool,
        (Text.splitAt '\n' (reindent unit keepIndent cs)).length =
            (Text.splitAt '\n' cs).length ∧
          List.Forall₂ (fun l l' => Text.trim l' = Text.trim l) (Text.splitAt '\n' cs)
            (Text.splitAt '\n' (reindent unit keepIndent cs)) := by
  have hblank : ∀ c ∈ unit, isBlank c = true := by
    intro c hc
    rcases hunit c hc with rfl | rfl <;> decide
  have hfree : '\n' ∉ unit := by
    intro hc
    rcases hunit _ hc with he | he <;> exact absurd he (by decide)
  constructor
  · apply rows_inj
    rw [rows_reindent hblank hfree, rows_reindent hblank hfree]
    exact reindentRows_reindentRows hblank (fun row hrow => (shaped_of_mem_rows hrow).2) 0
  · intro keepIndent
    have hmap : ((reindent unit keepIndent cs).splitOn '\n').map (trimBy isBlank) =
        (cs.splitOn '\n').map (trimBy isBlank) := map_trim_splitOn_reindent hblank hfree cs
    rw [Text.splitAt_eq_splitOn, Text.splitAt_eq_splitOn]
    constructor
    · simpa using congrArg List.length hmap
    · rw [← List.forall₂_eq_eq_eq, List.forall₂_map_left_iff, List.forall₂_map_right_iff] at hmap
      refine hmap.flip.imp fun l l' h => ?_
      rw [Text.trim_eq_trimBy, Text.trim_eq_trimBy]
      exact h

/-- A region in a block spans lines, and its first line ends with blanks.  So does the line that it
ends on, which keeps them. -/
theorem reindent_again_span :
    (∀ c ∈ ['\t'], c = ' ' ∨ c = '\t') ∧
      reindent ['\t'] false "\x7b% if x %\x7d\n  \x7b\x7b a( \n b) \x7d\x7d \nc  ".toList =
        "\x7b% if x %\x7d\n\t\x7b\x7b a(\n b) \x7d\x7d \n\tc".toList ∧
      reindent ['\t'] false "\x7b% if x %\x7d\n\t\x7b\x7b a(\n b) \x7d\x7d \n\tc".toList =
        "\x7b% if x %\x7d\n\t\x7b\x7b a(\n b) \x7d\x7d \n\tc".toList := by
  have hunit : ∀ c ∈ ['\t'], c = ' ' ∨ c = '\t' := fun c hc => Or.inr (List.mem_singleton.mp hc)
  have hout : reindent ['\t'] false
      "\x7b% if x %\x7d\n  \x7b\x7b a( \n b) \x7d\x7d \nc  ".toList =
        "\x7b% if x %\x7d\n\t\x7b\x7b a(\n b) \x7d\x7d \n\tc".toList := by decide +kernel
  have hagain := (reindent_again hunit
    "\x7b% if x %\x7d\n  \x7b\x7b a( \n b) \x7d\x7d \nc  ".toList).1
  rw [hout] at hagain
  exact ⟨hunit, hout, hagain⟩

end TwigTemplate.Layout
