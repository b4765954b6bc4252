import TwigTemplate.Proofs.Region.Completing
import TwigTemplate.Proofs.Report.Assignments

/-!
# Where findings stand

A finding is made when a region is read, behind the regions before it, or at the end, when the block
that a region opened is still open.  Such a region is template code, so it starts with an opener.

* `exists_split_of_mem_locate`: where a region stands among the regions around it.
* `exists_line_of_mem_ofLines`: the line of a region.
* `BelongsTo`, `exists_belongsTo`: **every finding belongs to a region**.
* `BelongsTo.exists_opener`: **a region with a finding starts with an opener**.
-/

namespace TwigTemplate

namespace Region

theorem exists_split_of_mem_locate {start : Point} {ps : List Piece} {r : Region}
    (h : r ∈ locate start ps) :
    ∃ before after, ps = before ++ piece r :: after ∧ r.start = start.advance (spell before) := by
  induction ps generalizing start with
  | nil => exact absurd h List.not_mem_nil
  | cons p ps ih =>
    rcases List.mem_cons.mp h with rfl | h
    · exact ⟨[], ps, rfl, rfl⟩
    · obtain ⟨before, after, rfl, hstart⟩ := ih h
      exact ⟨p :: before, after, rfl, by rw [hstart, spell_cons, Point.advance_append]⟩

/-- **A region stands on its line**, behind as many characters as its column says. -/
theorem exists_line_of_mem_ofLines {cs : List Char} {r : Region} (h : r ∈ (ofLines cs).flatten) :
    ∃ n front back, (Text.lines cs)[n]? = some (front ++ (r.raw ++ back)) ∧
      piece r ∈ pieces .line (front ++ (r.raw ++ back)) ∧ r.line = n + 1 ∧
      r.column = front.length + 1 := by
  rw [ofLines, Analysis.flatten_ofLinesFrom] at h
  obtain ⟨⟨l, i⟩, hrow, hr⟩ := List.mem_flatMap.mp h
  obtain ⟨hpos, hget⟩ := List.mk_mem_zipIdx_iff_le_and_getElem?_sub.mp hrow
  obtain ⟨before, after, hcut, hstart⟩ := exists_split_of_mem_locate hr
  have hspell : l = spell before ++ (r.raw ++ spell after) := by
    rw [← spell_pieces .line l, hcut]
    simp [spell, piece]
  have hfree : '\n' ∉ spell before := fun hmem =>
    Text.newline_not_mem_of_mem_lines (List.mem_of_getElem? hget)
      (hspell ▸ List.mem_append_left _ hmem)
  have hline : r.line = i := by
    rw [line, hstart, Point.advance_line, Text.newlineCount_eq_zero.mpr hfree, Nat.add_zero]
  have hcolumn : r.column = (spell before).length + 1 := by
    rw [column, hstart, Point.advance_column hfree, Nat.add_comm]
  refine ⟨i - 1, spell before, spell after, ?_, ?_, ?_, hcolumn⟩
  · rw [hget, hspell]
  · rw [← hspell, hcut]
    exact List.mem_append_right _ List.mem_cons_self
  · rw [hline]
    omega

theorem exists_opener_of_mem_pieces {reach : Reach} {cs : List Char} {p : Piece}
    (hp : p ∈ pieces reach cs) (hkind : p.kind ≠ .text) : ∃ form inner,
      (p.kind = .template form ∨ p.kind = .unterminated form) ∧ p.raw = form.opener ++ inner := by
  cases hk : p.kind with
  | text => exact absurd hk hkind
  | template form =>
    obtain ⟨inner, hraw⟩ := shape_of_mem_pieces p hp hk
    exact ⟨form, _, Or.inl rfl, hraw⟩
  | unterminated form =>
    obtain ⟨inner, hraw⟩ := exists_eq_opener_append p hp hk
    exact ⟨form, inner, Or.inr rfl, hraw⟩

end Region

namespace Analysis

open Nesting (Event)

variable {options : LintOptions} {cs : List Char} {f : Finding} {r : Region}

/-- A finding belongs to a region: it says what is wrong with the region, given the blocks that are
open in front of it, or that the block which the region opens is left open. -/
def BelongsTo (options : LintOptions) (cs : List Char) (f : Finding) (r : Region) : Prop :=
  r ∈ (Region.ofLines cs).flatten ∧ f.line = r.line ∧ f.column = r.column ∧
    ((∃ before after, (Region.ofLines cs).flatten = before ++ r :: after ∧
        f.cause ∈ (regionCauses options r (run options [] before).1).2) ∨
      ∃ b, Event.ofRegion? r = some (.opens b) ∧
        Frame.ofRegion b r ∈ (run options [] (Region.ofLines cs).flatten).1 ∧
        f ∈ (Frame.ofRegion b r).leftover)

theorem place_of_mem_leftover {frame : Frame} (h : f ∈ frame.leftover) :
    f.line = frame.line ∧ f.column = frame.column := by
  rw [Frame.leftover] at h
  rcases List.mem_append.mp h with h | h
  · split at h
    · rw [List.mem_singleton.mp h]
      exact ⟨rfl, rfl⟩
    · exact absurd h List.not_mem_nil
  · rw [List.mem_singleton.mp h]
    exact ⟨rfl, rfl⟩

/-- **Every finding belongs to a region.** -/
theorem exists_belongsTo (h : f ∈ (analyze options cs).findings) :
    ∃ r, BelongsTo options cs f r := by
  rcases mem_findings_iff.mp h with hfound | ⟨frame, hframe, hleft⟩
  · obtain ⟨before, r, after, hcut, hline, hcolumn, hcause⟩ := exists_split_of_mem_run hfound
    have hr : r ∈ (Region.ofLines cs).flatten :=
      hcut ▸ List.mem_append_right _ List.mem_cons_self
    exact ⟨r, hr, hline, hcolumn, Or.inl ⟨before, after, hcut, hcause⟩⟩
  · obtain ⟨r, hr, hopens, hof⟩ := exists_region_of_mem_stack hframe
    obtain ⟨hline, hcolumn⟩ := place_of_mem_leftover hleft
    rw [hof] at hframe hleft hline hcolumn
    exact ⟨r, hr, hline, hcolumn, Or.inr ⟨frame.block, hopens, hframe, hleft⟩⟩

theorem BelongsTo.kind_ne (h : BelongsTo options cs f r) : r.kind ≠ .text := by
  intro hkind
  rcases h.2.2.2 with ⟨before, after, -, hcause⟩ | ⟨b, hopens, -, -⟩
  · rw [regionCauses, hkind] at hcause
    exact absurd hcause List.not_mem_nil
  · rw [Event.ofRegion?, if_neg (by rw [hkind]; simp)] at hopens
    exact absurd hopens (by simp)

/-- **A region with a finding starts with an opener**, where its line and its column say. -/
theorem BelongsTo.exists_opener (h : BelongsTo options cs f r) : ∃ n front back form,
    (Text.lines cs)[n]? = some (front ++ (form.opener ++ back)) ∧
      (r.kind = .template form ∨ r.kind = .unterminated form) ∧ form.opener <+: r.raw ∧
      f.line = n + 1 ∧ f.column = front.length + 1 := by
  obtain ⟨n, front, back, hline, hmem, hrow, hcolumn⟩ := Region.exists_line_of_mem_ofLines h.1
  obtain ⟨form, inner, hkind, hraw⟩ := Region.exists_opener_of_mem_pieces hmem h.kind_ne
  have hraw : r.raw = form.opener ++ inner := hraw
  refine ⟨n, front, inner ++ back, form, ?_, hkind, ⟨inner, hraw.symm⟩, h.2.1.trans hrow,
    h.2.2.1.trans hcolumn⟩
  rw [hline, hraw, List.append_assoc]

end Analysis

end TwigTemplate
