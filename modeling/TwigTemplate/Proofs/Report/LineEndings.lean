import TwigTemplate.Proofs.Report.Regions
import TwigTemplate.Proofs.Text.LineEndings

/-!
# The lines of a report

A report counts lines as a file is read: a carriage return that no newline follows ends none of
them.  The text that is laid out and folded has a newline there.

* `line_le_of_mem_findings`: a finding is not below the last newline.
* `unclosedOutput_mem_findings`: behind a last newline an output that is not closed is found.
* `analyze_unifyNewlines_iff`: **the report is that on the text with newlines, whatever follows,
  exactly when no carriage return stands alone**.
-/

namespace TwigTemplate.Analysis

variable {options : LintOptions}

/-- An analysis reads the lines of a text. -/
theorem analyze_congr {cs ds : List Char} (h : Text.lines cs = Text.lines ds) :
    analyze options cs = analyze options ds := by
  rw [analyze, analyze, Region.ofLines, Region.ofLines, h]

theorem line_le_of_mem_findings {cs : List Char} {f : Finding}
    (h : f ∈ (analyze options cs).findings) : f.line ≤ 1 + Text.newlineCount cs := by
  obtain ⟨r, hr⟩ := exists_belongsTo h
  rw [hr.2.1]
  exact line_le_of_mem_lines r hr.1

theorem ofLinesFrom_unclosedOutput (line : Nat) :
    (Region.ofLinesFrom line (Text.lines "\x7b\x7b".toList)).flatten =
      [⟨.unterminated .output, ⟨line, 1, 0⟩, ⟨line, 3, 2⟩, "\x7b\x7b".toList⟩] := by
  have hpieces : Region.pieces .line "\x7b\x7b".toList =
      [⟨.unterminated .output, "\x7b\x7b".toList⟩] := by decide +kernel
  rw [Region.flatten_ofLinesFrom_lines (by decide), Region.ofLine, hpieces]
  rfl

theorem unclosedOutput_mem_findings (cs : List Char) :
    ⟨2 + Text.newlineCount cs, 1, .unclosedOutput⟩ ∈
      (analyze options (cs ++ '\n' :: "\x7b\x7b".toList)).findings := by
  have hlast := ofLinesFrom_unclosedOutput (1 + (1 + Text.newlineCount cs))
  generalize hr : (⟨.unterminated .output, ⟨1 + (1 + Text.newlineCount cs), 1, 0⟩,
    ⟨1 + (1 + Text.newlineCount cs), 3, 2⟩, "\x7b\x7b".toList⟩ : Region) = r at hlast
  have hcause : ∀ st, .unclosedOutput ∈ (regionCauses options r st).2 := by
    intro st
    rw [← hr, regionCauses]
    exact List.mem_cons_self
  have hmem : r ∈ (Region.ofLinesFrom 1 (Text.lines cs)).flatten ++ [r] :=
    List.mem_append_right _ List.mem_cons_self
  obtain ⟨st, hst⟩ := @exists_finding_of_mem_run options _ _ hmem []
  have hfound := hst _ (hcause st)
  have hline : r.line = 2 + Text.newlineCount cs := by
    rw [← hr]
    exact (Nat.add_assoc 1 1 _).symm
  have hcolumn : r.column = 1 := hr ▸ rfl
  rw [hline, hcolumn] at hfound
  rw [mem_findings_iff, Region.ofLines, run_lines_append, hlast]
  exact Or.inl hfound

/-- **A report is that on the text with newlines for its line ends, whatever follows,** exactly when
no carriage return stands alone; and only then have the two texts the same lines. -/
theorem analyze_unifyNewlines_iff (options : LintOptions) (cs : List Char) :
    (Text.lines (Text.unifyNewlines cs) = Text.lines cs ↔ ¬ Text.LoneReturn cs) ∧
      ((∀ back, ¬ Text.LoneReturn back →
        analyze options (Text.unifyNewlines (cs ++ back)) = analyze options (cs ++ back)) ↔
          ¬ Text.LoneReturn cs) := by
  refine ⟨Text.lines_unifyNewlines_iff, fun h hlone => ?_, fun h back hback => ?_⟩
  · -- An output that is not closed, further down, is found on a line that the text does not have.
    have hx : (cs ++ ['x']).getLast? ≠ some '\r' := by simp
    have hmore := Text.newlineCount_lt_of_loneReturn
      (hlone.append (by decide : ['x'].head? ≠ some '\n'))
    have hfound := @unclosedOutput_mem_findings options (Text.unifyNewlines (cs ++ ['x']))
    have hunify : Text.unifyNewlines (cs ++ ['x'] ++ '\n' :: "\x7b\x7b".toList) =
        Text.unifyNewlines (cs ++ ['x']) ++ '\n' :: "\x7b\x7b".toList :=
      Text.unifyNewlines_append hx _
    have heq := h ('x' :: '\n' :: "\x7b\x7b".toList) (by rw [Text.loneReturn_iff]; decide)
    rw [List.append_cons, hunify] at heq
    rw [heq] at hfound
    have hle : 2 + Text.newlineCount (Text.unifyNewlines (cs ++ ['x'])) ≤
        1 + Text.newlineCount (cs ++ ['x'] ++ '\n' :: "\x7b\x7b".toList) :=
      line_le_of_mem_findings hfound
    rw [Text.newlineCount_append] at hle
    have hone : Text.newlineCount ('\n' :: "\x7b\x7b".toList) = 1 := by decide
    omega
  · exact analyze_congr (Text.lines_unifyNewlines_iff.mpr fun hlone =>
      hlone.of_append.elim h hback)

/-- Carriage returns in front of newlines do not count as lines. -/
theorem analyze_unifyNewlines_crlf :
    ¬ Text.LoneReturn "a\r\n{{ }}\r\n".toList ∧
      analyze .standard (Text.unifyNewlines ("a\r\n{{ }}\r\n".toList ++ [])) =
        analyze .standard ("a\r\n{{ }}\r\n".toList ++ []) ∧
      (analyze .standard "a\r\n{{ }}\r\n".toList).findings = [⟨2, 1, .emptyOutput⟩] := by
  have h : ¬ Text.LoneReturn "a\r\n{{ }}\r\n".toList := by
    rw [Text.loneReturn_iff]
    decide
  exact ⟨h, (analyze_unifyNewlines_iff .standard _).2.mpr h [] Text.not_loneReturn_nil,
    by decide +kernel⟩

/-- Behind a carriage return that stands alone a report counts a line less than the text that is
laid out has. -/
theorem analyze_loneReturn :
    (analyze .standard "a\r{{ }}".toList).findings = [⟨1, 3, .emptyOutput⟩] ∧
      (analyze .standard (Text.unifyNewlines "a\r{{ }}".toList)).findings =
        [⟨2, 1, .emptyOutput⟩] := by
  decide +kernel

end TwigTemplate.Analysis
