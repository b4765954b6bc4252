import TwigTemplate.Editor.Mark
import TwigTemplate.Proofs.Editor.Position
import TwigTemplate.Proofs.Report.Regions

/-!
# Where marks stand

A mark starts at the opener of the region that its finding belongs to, and the editor finds the
opener there again.  It ends with its line; but when the last line of a text ends with a carriage
return, the mark goes on over it, and the editor has no such place.

* `Mark.PointsAt`: a mark starts at a region.
* `getElem?_lines_opener`: a line of the report with an opener, as the editor has it.
* `marks_pointAt`: **every mark points at the region of its finding**, and where it ends.
* `mark_over_return`: a mark that ends behind its line.
-/

namespace TwigTemplate.Editor

open Text (width16)

/-- A mark points at a region: it stands on the line of the region, and the editor, asked for the
start of the mark, finds the opener of the region there. -/
structure Mark.PointsAt (m : Mark) (cs : List Char) (r : Region) (form : Form)
    (front back : List Char) : Prop where
  kind : r.kind = .template form ∨ r.kind = .unterminated form
  opener : form.opener <+: r.raw
  line : r.line = m.range.start.line + 1
  column : r.column = front.length + 1
  start : byteIndexAt? cs m.range.start = some (front ++ (form.opener ++ back), Text.width8 front)
  oneLine : m.range.stop.line = m.range.start.line
  ordered : m.range.start.character ≤ m.range.stop.character

/-- A line of the report with an opener, as the editor has it: what stands before the opener is the
same. -/
theorem getElem?_lines_opener {cs front back : List Char} {n : Nat} {form : Form}
    (h : (Text.lines cs)[n]? = some (front ++ (form.opener ++ back))) :
    ∃ back', (lines cs)[n]? = some (front ++ (form.opener ++ back')) ∧
      back = back' ++ if EndsInReturn cs n then ['\r'] else [] := by
  obtain ⟨line, hline, hcut⟩ := getElem?_lines h
  split at hcut
  · next hend =>
    -- The return is no part of the opener.
    obtain ⟨back', rfl⟩ : ∃ back', back = back' ++ ['\r'] := by
      have hlast : (front ++ (form.opener ++ back)).getLast? = some '\r' := by
        rw [hcut, List.getLast?_concat]
      rw [List.getLast?_append_of_ne_nil _ (by simp [Form.opener])] at hlast
      by_cases hback : back = []
      · rw [hback, List.append_nil] at hlast
        cases form <;> simp [Form.opener, Form.mark] at hlast
      · rw [List.getLast?_append_of_ne_nil _ hback] at hlast
        exact List.getLast?_eq_some_iff.mp hlast
    rw [← List.append_assoc, ← List.append_assoc] at hcut
    refine ⟨back', ?_, by rw [if_pos hend]⟩
    rw [hline, ← List.append_cancel_right hcut, List.append_assoc]
  · next hend =>
    rw [List.append_nil] at hcut
    exact ⟨back, by rw [hline, hcut], by rw [if_neg hend, List.append_nil]⟩

theorem range_ofFinding {ls : List (List Char)} {f : Finding} {n : Nat} {front back : List Char}
    (h : ls[n]? = some (front ++ back)) (hline : f.line = n + 1)
    (hcolumn : f.column = front.length + 1) :
    (Mark.ofFinding ls f).range = .onLine n (width16 front) (width16 (front ++ back)) := by
  have hstart : column16 (front ++ back) (f.column - 1) = width16 front := by
    rw [column16, hcolumn, Nat.add_sub_cancel, List.take_left]
  have hle : width16 front ≤ width16 (front ++ back) := by
    rw [Text.width16_append]
    exact Nat.le_add_right _ _
  rw [Mark.ofFinding, hline, Nat.add_sub_cancel, h]
  dsimp only [Option.getD_some]
  rw [hstart, Nat.max_eq_left hle]

/-- **Every mark points at the region that its finding belongs to.**  It ends where its line does,
unless a carriage return ends the text there: then it ends one column further.  And the place of
every character of a line is found again. -/
theorem marks_pointAt (o : LintOptions) (cs : List Char) :
    (∀ m ∈ marks o cs, ∃ f ∈ (analyze o cs).findings, ∃ r form front back,
      m = .ofFinding (Text.lines cs) f ∧ Analysis.BelongsTo o cs f r ∧
        m.PointsAt cs r form front back ∧
        m.range.stop.character = width16 (front ++ (form.opener ++ back)) +
          if EndsInReturn cs m.range.start.line then 1 else 0) ∧
    ∀ n line, (lines cs)[n]? = some line → ∀ column,
      byteIndexAt? cs ⟨n, column16 line column⟩ =
        some (line, Text.width8 (line.take column)) := by
  refine ⟨fun m hm => ?_, fun n line hline column => byteIndexAt?_column16 hline column⟩
  obtain ⟨f, hf, rfl⟩ := List.mem_map.mp hm
  obtain ⟨r, hr⟩ := Analysis.exists_belongsTo hf
  obtain ⟨n, front, back, form, hl, hkind, hopener, hline, hcolumn⟩ := hr.exists_opener
  obtain ⟨back', hline', rfl⟩ := getElem?_lines_opener hl
  have hrange := range_ofFinding hl hline hcolumn
  have hstart : byteIndexAt? cs ⟨n, width16 front⟩ =
      some (front ++ (form.opener ++ back'), Text.width8 front) := by
    rw [byteIndexAt?, lineAt?_width16 hline', Option.map_some]
  refine ⟨f, hf, r, form, front, back', rfl, hr, ⟨hkind, hopener, ?_, ?_, ?_, ?_, ?_⟩, ?_⟩
  · rw [← hr.2.1, hline, hrange]
    rfl
  · rw [← hr.2.2.1, hcolumn]
  · rw [hrange]
    exact hstart
  · rw [hrange]
    rfl
  · rw [hrange, Range.onLine, Text.width16_append]
    exact Nat.le_add_right _ _
  · rw [hrange, Range.onLine]
    dsimp only
    rw [← List.append_assoc form.opener, ← List.append_assoc front, Text.width16_append]
    split <;> rfl

/-- A mark behind a character of two units, on a line that ends with a carriage return and a
newline. -/
theorem marks_pointAt_astral :
    marks .standard "é\r\n𝄞{{ }}\r\n".toList =
        [⟨⟨⟨1, 2⟩, ⟨1, 7⟩⟩, .error, .syntactic, "empty variable expression"⟩] ∧
      byteIndexAt? "é\r\n𝄞{{ }}\r\n".toList ⟨1, 2⟩ = some ("𝄞{{ }}".toList, 4) ∧
      ∃ f r form front back,
        Analysis.BelongsTo .standard "é\r\n𝄞{{ }}\r\n".toList f r ∧
          (⟨⟨⟨1, 2⟩, ⟨1, 7⟩⟩, .error, .syntactic, "empty variable expression"⟩ : Mark).PointsAt
            "é\r\n𝄞{{ }}\r\n".toList r form front back := by
  have hmarks : marks .standard "é\r\n𝄞{{ }}\r\n".toList =
      [⟨⟨⟨1, 2⟩, ⟨1, 7⟩⟩, .error, .syntactic, "empty variable expression"⟩] := by decide +kernel
  have hline : (lines "é\r\n𝄞{{ }}\r\n".toList)[1]? = some "𝄞{{ }}".toList := by decide +kernel
  have hcolumn : column16 "𝄞{{ }}".toList 1 = 2 ∧
      Text.width8 ("𝄞{{ }}".toList.take 1) = 4 := by decide +kernel
  obtain ⟨hpoint, hplace⟩ := marks_pointAt .standard "é\r\n𝄞{{ }}\r\n".toList
  obtain ⟨f, -, r, form, front, back, -, hbelongs, hpoints, -⟩ :=
    hpoint _ (hmarks ▸ List.mem_cons_self)
  have hfound := hplace 1 _ hline 1
  rw [hcolumn.1, hcolumn.2] at hfound
  exact ⟨hmarks, hfound, f, r, form, front, back, hbelongs, hpoints⟩

/-- A carriage return ends the text, and a mark goes on over it: the line that the editor has is one
column shorter. -/
theorem mark_over_return :
    marks .standard "\x7b\x7b a\r".toList =
        [⟨⟨⟨0, 0⟩, ⟨0, 5⟩⟩, .error, .syntactic, "unclosed variable output"⟩] ∧
      byteIndexAt? "\x7b\x7b a\r".toList ⟨0, 0⟩ = some ("\x7b\x7b a".toList, 0) ∧
      width16 "\x7b\x7b a".toList = 4 := by
  decide +kernel

end TwigTemplate.Editor
