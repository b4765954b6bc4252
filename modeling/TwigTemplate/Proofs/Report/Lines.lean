import TwigTemplate.Proofs.Point
import TwigTemplate.Proofs.Region.Rereading
import TwigTemplate.Proofs.Report.Causes

/-!
# An analysis goes line by line

Only the lines of a text that hold more than blanks matter to its analysis, and of
these what their regions say.

* `inkLines`: the lines that matter, with their numbers.
* `codeRegions_ofLines`: the regions of a text are those of such lines.
* `causes_lines`: **texts whose lines say the same are given the same causes**.
-/

namespace TwigTemplate.Analysis

open List (Forall₂)
open Text (isBlank trimBy inkOf)
open Region (Token lineTokens codesOf reading Closed)

/-! ### The regions of a line -/

theorem line_of_mem_locate {ps : List Region.Piece} (hps : '\n' ∉ Region.spell ps)
    {start : Point} : ∀ r ∈ Region.locate start ps, r.line = start.line := by
  induction ps generalizing start with
  | nil => simp [Region.locate]
  | cons p ps ih =>
    rw [Region.spell_cons, List.mem_append, not_or] at hps
    intro r hr
    rcases List.mem_cons.mp hr with rfl | hr
    · rfl
    · have hline : (start.advance p.raw).line = start.line := by
        rw [Point.advance_line, Text.newlineCount, List.count_eq_zero.mpr hps.1, Nat.add_zero]
      rw [ih hps.2 r hr, hline]

theorem line_of_mem_ofLine {l : List Char} (hl : '\n' ∉ l) {i : Nat} :
    ∀ r ∈ Region.ofLine l i, r.line = i := by
  apply line_of_mem_locate
  rw [Region.spell_pieces]
  exact hl

theorem readings_locate {ps : List Region.Piece}
    (hps : ∀ p ∈ ps, ∀ form : Form, p.kind = .template form → ∃ rest, p.raw = form.opener ++ rest)
    (start : Point) :
    (codeRegions (Region.locate start ps)).map (fun r => (r.kind, r.content)) =
      (codesOf (Region.tokens ps)).map reading := by
  induction ps generalizing start with
  | nil => rfl
  | cons p ps ih =>
    have hrest := ih (fun q hq => hps q (List.mem_cons_of_mem _ hq)) (start.advance p.raw)
    rw [Region.locate, codeRegions_cons, Region.tokens_cons, Region.codesOf_append,
      Region.Piece.tokens]
    by_cases hp : p.kind.isTemplate = true
    · rw [if_pos hp, if_pos hp, List.map_cons, List.map_append, hrest]
      cases hkind : p.kind with
      | text =>
        rw [hkind] at hp
        exact absurd hp (by simp [Region.Kind.isTemplate])
      | unterminated form =>
        rw [hkind] at hp
        exact absurd hp (by simp [Region.Kind.isTemplate])
      | template form =>
        obtain ⟨rest, hraw⟩ := hps p List.mem_cons_self form hkind
        rw [hraw]
        exact congrArg (· :: _) (Region.reading_eq form rest).symm
    · rw [if_neg hp, if_neg hp, hrest, Region.codesOf_map_char, List.nil_append]

/-- **The regions of a line say what its tokens say.** -/
theorem readings_ofLine {l : List Char} (hl : '\n' ∉ l) (i : Nat) :
    (codeRegions (Region.ofLine l i)).map (fun r => (r.kind, r.content)) =
      (codesOf (lineTokens l)).map reading := by
  rw [Region.ofLine, Region.pieces_line_eq hl]
  apply readings_locate
  intro p hp form hkind
  obtain ⟨inner, hinner⟩ := Region.shape_of_mem_pieces p hp hkind
  exact ⟨_, hinner⟩

theorem codeRegions_of_blank {l : List Char} (hl : '\n' ∉ l) (hblank : ∀ c ∈ l, isBlank c = true)
    (i : Nat) : codeRegions (Region.ofLine l i) = [] := by
  have h := readings_ofLine hl i
  rw [Region.codesOf_blank ((Region.blank_lineTokens_iff l).mpr hblank)] at h
  exact List.map_eq_nil_iff.mp h

theorem codeRegions_same {R : Nat → Nat → Prop} {l w : List Char} {i j : Nat} (hl : '\n' ∉ l)
    (hw : '\n' ∉ w)
    (h : (codesOf (lineTokens w)).map reading = (codesOf (lineTokens l)).map reading) (hR : R i j) :
    Forall₂ (Same R) (codeRegions (Region.ofLine l i)) (codeRegions (Region.ofLine w j)) := by
  rw [← readings_ofLine hl i, ← readings_ofLine hw j, eq_comm, ← List.forall₂_eq_eq_eq,
    List.forall₂_map_left_iff, List.forall₂_map_right_iff] at h
  obtain ⟨hlen, hzip⟩ := List.forall₂_iff_zip.mp h
  refine List.forall₂_iff_zip.mpr ⟨hlen, fun {r s} hrs => ?_⟩
  obtain ⟨hkind, hcontent⟩ := Prod.mk.inj (hzip hrs)
  obtain ⟨hr, hs⟩ := List.of_mem_zip hrs
  refine ⟨hkind, hcontent, ?_⟩
  rw [line_of_mem_ofLine hl r (List.mem_filter.mp hr).1,
    line_of_mem_ofLine hw s (List.mem_filter.mp hs).1]
  exact hR

/-! ### The lines that matter -/

/-- The lines that hold more than blanks, with their numbers. -/
def inkLines (ls : List (List Char)) : List (List Char × Nat) :=
  (ls.zipIdx 1).filter fun r => !(trimBy isBlank r.1).isEmpty

theorem mem_of_mem_inkLines {ls : List (List Char)} {r : List Char × Nat} (h : r ∈ inkLines ls) :
    r.1 ∈ ls :=
  List.fst_mem_of_mem_zipIdx (List.mem_filter.mp h).1

theorem pairwise_inkLines (ls : List (List Char)) :
    (inkLines ls).Pairwise fun r s => r.2 < s.2 := by
  apply List.Pairwise.filter
  rw [← List.pairwise_map (f := Prod.snd) (R := (· < ·)), List.zipIdx_map_snd]
  exact List.pairwise_lt_range'

theorem map_inkLines {α : Type} {p : α → Bool} {τ : List Char → List α} {ls : List (List Char)}
    (h : ∀ l, trimBy p (τ l) = [] ↔ trimBy isBlank l = []) :
    (inkLines ls).map (fun r => trimBy p (τ r.1)) = inkOf p (ls.map τ) := by
  have hfst : ls = (ls.zipIdx 1).map Prod.fst := (List.zipIdx_map_fst 1 ls).symm
  conv_rhs => rw [hfst]
  rw [inkLines, inkOf, List.map_map, List.map_map, List.filter_map]
  congr 1
  apply List.filter_congr
  intro r _
  have := h r.1
  rw [Function.comp_apply, Function.comp_apply, Function.comp_apply, Bool.eq_iff_iff]
  simpa using (not_congr this).symm

theorem flatten_ofLinesFrom (n : Nat) (ls : List (List Char)) :
    (Region.ofLinesFrom n ls).flatten = (ls.zipIdx n).flatMap fun r => Region.ofLine r.1 r.2 := by
  induction ls generalizing n with
  | nil => rfl
  | cons l ls ih =>
    rw [Region.ofLinesFrom, List.flatten_cons, ih, List.zipIdx_cons, List.flatMap_cons]

/-- **The regions of a text are those of the lines that matter.** -/
theorem codeRegions_ofLines {cs : List Char} (h : ∀ l ∈ Text.lines cs, '\n' ∉ l) :
    codeRegions (Region.ofLines cs).flatten =
      (inkLines (Text.lines cs)).flatMap fun r => codeRegions (Region.ofLine r.1 r.2) := by
  rw [Region.ofLines, flatten_ofLinesFrom, codeRegions, List.filter_flatMap, inkLines]
  have hmem : ∀ r ∈ (Text.lines cs).zipIdx 1, '\n' ∉ r.1 := fun r hr =>
    h r.1 (List.fst_mem_of_mem_zipIdx hr)
  generalize (Text.lines cs).zipIdx 1 = rows at hmem ⊢
  induction rows with
  | nil => rfl
  | cons r rows ih =>
    have hrest := ih fun s hs => hmem s (List.mem_cons_of_mem _ hs)
    rw [List.flatMap_cons, hrest, List.filter_cons]
    by_cases hr : trimBy isBlank r.1 = []
    · have hnone := codeRegions_of_blank (hmem r List.mem_cons_self) (Text.trimBy_eq_nil_iff.mp hr)
        r.2
      rw [codeRegions] at hnone
      rw [if_neg (by simp [hr]), hnone, List.nil_append]
    · rw [if_pos (by simpa using hr), List.flatMap_cons]
      rfl

theorem inOrder_zip {as bs : List (List Char × Nat)} (ha : as.Pairwise fun r s => r.2 < s.2)
    (hb : bs.Pairwise fun r s => r.2 < s.2) :
    InOrder fun i j => ∃ a b, (a, b) ∈ as.zip bs ∧ a.2 = i ∧ b.2 = j := by
  rintro i j k l ⟨a, b, hab, rfl, rfl⟩ ⟨a', b', hab', rfl, rfl⟩
  obtain ⟨m, hm, heq⟩ := List.mem_iff_getElem.mp hab
  obtain ⟨m', hm', heq'⟩ := List.mem_iff_getElem.mp hab'
  rw [List.length_zip] at hm hm'
  rw [List.getElem_zip] at heq heq'
  obtain ⟨rfl, rfl⟩ := Prod.mk.inj heq
  obtain ⟨rfl, rfl⟩ := Prod.mk.inj heq'
  rw [List.pairwise_iff_getElem] at ha hb
  rcases Nat.lt_trichotomy m m' with hlt | rfl | hlt
  · have := ha m m' (by omega) (by omega) hlt
    have := hb m m' (by omega) (by omega) hlt
    omega
  · omega
  · have := ha m' m (by omega) (by omega) hlt
    have := hb m' m (by omega) (by omega) hlt
    omega

theorem closed_ofLines {cs : List Char} (h : ∀ l ∈ Text.lines cs, Closed (Region.pieces .line l)) :
    ∀ r ∈ (Region.ofLines cs).flatten, ∀ form : Form, r.kind ≠ .unterminated form := by
  intro r hr
  rw [Region.ofLines, flatten_ofLinesFrom] at hr
  obtain ⟨row, hrow, hr⟩ := List.mem_flatMap.mp hr
  have hpiece : Region.piece r ∈ Region.pieces .line row.1 := by
    rw [← Region.map_piece_locate ⟨row.2, 1, 0⟩ (Region.pieces .line row.1)]
    exact List.mem_map_of_mem hr
  exact h row.1 (List.fst_mem_of_mem_zipIdx hrow) _ hpiece

theorem closed_lines {cs : List Char}
    (h : ∀ r ∈ (Region.ofLines cs).flatten, ∀ form : Form, r.kind ≠ .unterminated form) :
    ∀ l ∈ Text.lines cs, Closed (Region.pieces .line l) := by
  intro l hl p hp
  rw [← List.zipIdx_map_fst 1 (Text.lines cs)] at hl
  obtain ⟨row, hrow, rfl⟩ := List.mem_map.mp hl
  rw [← Region.map_piece_locate ⟨row.2, 1, 0⟩ (Region.pieces .line row.1)] at hp
  obtain ⟨r, hr, rfl⟩ := List.mem_map.mp hp
  apply h r
  rw [Region.ofLines, flatten_ofLinesFrom]
  exact List.mem_flatMap.mpr ⟨row, hrow, hr⟩

/-- **Texts whose lines say the same are given the same causes.** -/
theorem causes_lines {options : LintOptions} {cs ds : List Char}
    (hcs : ∀ l ∈ Text.lines cs, '\n' ∉ l ∧ Closed (Region.pieces .line l))
    (hds : ∀ l ∈ Text.lines ds, '\n' ∉ l ∧ Closed (Region.pieces .line l))
    (h : Forall₂ (fun a b => (codesOf (lineTokens b.1)).map reading =
        (codesOf (lineTokens a.1)).map reading)
      (inkLines (Text.lines cs)) (inkLines (Text.lines ds))) :
    (analyze options cs).findings.map (·.cause) = (analyze options ds).findings.map (·.cause) := by
  have hanalyze : ∀ es : List Char,
      (∀ l ∈ Text.lines es, '\n' ∉ l ∧ Closed (Region.pieces .line l)) →
      analyze options es = .ofFindings
        ((run options [] (codeRegions (Region.ofLines es).flatten)).2 ++
          (run options [] (codeRegions (Region.ofLines es).flatten)).1.reverse.flatMap
            Frame.leftover) := by
    intro es hes
    rw [run_codeRegions (closed_ofLines fun l hl => (hes l hl).2)]
    rfl
  have horder := inOrder_zip (pairwise_inkLines (Text.lines cs)) (pairwise_inkLines (Text.lines ds))
  rw [hanalyze cs hcs, hanalyze ds hds]
  apply causes_same horder
  rw [codeRegions_ofLines fun l hl => (hcs l hl).1, codeRegions_ofLines fun l hl => (hds l hl).1]
  -- Each pair of lines is one of those that the order was read off.
  obtain ⟨hlen, hzip⟩ := List.forall₂_iff_zip.mp h
  have hpairs : Forall₂
      (fun a b => (a, b) ∈ (inkLines (Text.lines cs)).zip (inkLines (Text.lines ds)))
      (inkLines (Text.lines cs)) (inkLines (Text.lines ds)) :=
    List.forall₂_iff_zip.mpr ⟨hlen, id⟩
  refine List.rel_flatMap hpairs fun a b hab => ?_
  obtain ⟨ha, hb⟩ := List.of_mem_zip hab
  exact codeRegions_same (hcs a.1 (mem_of_mem_inkLines ha)).1 (hds b.1 (mem_of_mem_inkLines hb)).1
    (hzip hab) ⟨a, b, hab, rfl, rfl⟩

end TwigTemplate.Analysis
