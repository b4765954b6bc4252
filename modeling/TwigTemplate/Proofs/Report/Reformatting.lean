import TwigTemplate.Proofs.Layout.Rows
import TwigTemplate.Proofs.Report.Lines

/-!
# Reformatting and the report

When every opener of a document is closed on its line, the lines of the reformatted
document are the lines of the document in the same order, each with the same
regions saying the same.  So the report gives the same causes.

* `lines_reformat`: the lines of the reformatted document.
* `analyze_reformat`: **reformatting does not change the causes that a report
  gives**.
-/

namespace TwigTemplate.Analysis

open List (Forall₂)
open Text (isBlank trimBy inkBy inkOf)
open Layout (Printer PrinterOptions ReflowOptions reformat reindent printedText)
open Region (Token lineTokens squeeze codesOf reading Closed)

theorem isBlank_return : ∀ c ∈ ['\r'], isBlank c = true :=
  List.forall_mem_singleton.mpr (by decide)

theorem closed_splitOn {cs : List Char} (h : ∀ l ∈ Text.lines cs, Closed (Region.pieces .line l)) :
    ∀ l ∈ cs.splitOn '\n', Closed (Region.pieces .line l) := by
  intro part hpart
  rcases Text.mem_lines_of_mem_splitOn hpart with rfl | hmem | ⟨hmem, hcut⟩
  · rw [Region.pieces]
    exact fun p hp => absurd hp (by simp)
  · exact h part hmem
  · have hclosed := h _ hmem
    rw [Region.pieces_line_eq (Text.newline_not_mem_of_mem_lines hmem)] at hclosed
    rw [Region.pieces_line_eq (Text.not_mem_of_mem_splitOn hpart), hcut]
    exact (Region.lineTokens_append_blank hclosed isBlank_return).2

theorem trim_lineTokens_dropReturn {cs part : List Char}
    (h : ∀ l ∈ Text.lines cs, Closed (Region.pieces .line l))
    (hpart : Text.dropReturn part ∈ Text.lines cs) :
    trimBy Token.isBlank (lineTokens (Text.dropReturn part)) =
      trimBy Token.isBlank (lineTokens part) := by
  rcases Text.eq_dropReturn part with he | he
  · rw [← he]
  · have hclosed := h _ hpart
    rw [Region.pieces_line_eq (Text.newline_not_mem_of_mem_lines hpart)] at hclosed
    conv_rhs => rw [he]
    rw [(Region.lineTokens_append_blank hclosed isBlank_return).1, Text.trimBy_append_right]
    exact List.forall_mem_singleton.mpr (by decide)

/-! ### The lines of the reformatted document -/

section Lines

variable {o : ReflowOptions} {cs out : List Char}

/-- The ink of the reformatted document, read off the lines of the document. -/
theorem inkOf_lines_reformat (h : ∀ l ∈ Text.lines cs, Closed (Region.pieces .line l))
    (hout : reformat Printer.builtin o cs = .ok out) :
    inkOf isBlank (Text.lines out) =
      (inkOf Token.isBlank ((Text.lines cs).map lineTokens)).map
        fun ts => Region.tell (ts.map squeeze) := by
  rw [Layout.reformat_builtin] at hout
  obtain rfl := Except.ok.inj hout
  have hnil : lineTokens [] = [] := by
    rw [lineTokens, Region.pieces]
    rfl
  rw [Text.inkOf_map_lines (fun l => trim_lineTokens_dropReturn h) hnil,
    ← Layout.inkBy_reindent_printedText (closed_splitOn h)]
  generalize reindent o.printer.indentUnit o.markupIndent (printedText o.printer cs) = out
  have hid : inkOf isBlank ((Text.lines out).map id) =
      inkOf isBlank ((out.splitOn '\n').map id) :=
    Text.inkOf_map_lines (fun l _ => Text.trim_dropReturn l) rfl
  rw [List.map_id, List.map_id] at hid
  exact hid

/-- **Line for line the reformatted document has the ink of the document**, with its
regions squeezed. -/
theorem lines_reformat (h : ∀ l ∈ Text.lines cs, Closed (Region.pieces .line l))
    (hout : reformat Printer.builtin o cs = .ok out) :
    Forall₂ (fun a b => trimBy isBlank b.1 =
        Region.tell ((trimBy Token.isBlank (lineTokens a.1)).map squeeze))
      (inkLines (Text.lines cs)) (inkLines (Text.lines out)) := by
  have hink := inkOf_lines_reformat h hout
  have hleft : (inkLines (Text.lines cs)).map (fun r => trimBy Token.isBlank (lineTokens r.1)) =
      inkOf Token.isBlank ((Text.lines cs).map lineTokens) :=
    map_inkLines Region.trim_lineTokens_eq_nil_iff
  have hright : (inkLines (Text.lines out)).map (fun r => trimBy isBlank (id r.1)) =
      inkOf isBlank ((Text.lines out).map id) := map_inkLines fun _ => Iff.rfl
  rw [List.map_id] at hright
  rw [← hleft, ← hright, List.map_map, eq_comm, ← List.forall₂_eq_eq_eq, List.forall₂_map_left_iff,
    List.forall₂_map_right_iff] at hink
  exact hink.imp fun _ _ hab => hab.symm

end Lines

/-! ### The report -/

theorem closed_of_blank {l : List Char} (hblank : ∀ c ∈ l, isBlank c = true) :
    Closed (Region.pieces .document l) := by
  have hall := Region.isBlank_of_mem_map_char hblank
  have hclosed := (Region.tokens_pieces_of_scans (Region.scans_blank false hall)).2 rfl
  rwa [Region.tell_map_char] at hclosed

theorem closed_lines_reformat {o : ReflowOptions} {cs out : List Char}
    (h : ∀ l ∈ Text.lines cs, Closed (Region.pieces .line l))
    (hout : reformat Printer.builtin o cs = .ok out) :
    ∀ w ∈ Text.lines out, Closed (Region.pieces .line w) := by
  intro w hw
  rw [Region.pieces_line_eq (Text.newline_not_mem_of_mem_lines hw)]
  by_cases hblank : trimBy isBlank w = []
  · exact closed_of_blank (Text.trimBy_eq_nil_iff.mp hblank)
  · obtain ⟨hlen, hzip⟩ := List.forall₂_iff_zip.mp (lines_reformat h hout)
    obtain ⟨j, hj⟩ : ∃ j, (w, j) ∈ inkLines (Text.lines out) := by
      rw [← List.zipIdx_map_fst 1 (Text.lines out)] at hw
      obtain ⟨row, hrow, rfl⟩ := List.mem_map.mp hw
      exact ⟨row.2, List.mem_filter.mpr ⟨hrow, by simpa using hblank⟩⟩
    rw [← List.map_snd_zip (Nat.le_of_eq hlen.symm)] at hj
    obtain ⟨⟨a, b⟩, hab, rfl⟩ := List.mem_map.mp hj
    have ha := mem_of_mem_inkLines (List.of_mem_zip hab).1
    have hfree := Text.newline_not_mem_of_mem_lines ha
    have hclosed := h a.1 ha
    rw [Region.pieces_line_eq hfree] at hclosed
    exact (Region.lineTokens_relaid hfree hclosed (hzip hab)).2

/-- **Line for line the reformatted document says what the document says.** -/
theorem readings_reformat {o : ReflowOptions} {cs out : List Char}
    (h : ∀ l ∈ Text.lines cs, Closed (Region.pieces .line l))
    (hout : reformat Printer.builtin o cs = .ok out) :
    Forall₂ (fun a b => (codesOf (lineTokens b.1)).map reading =
        (codesOf (lineTokens a.1)).map reading)
      (inkLines (Text.lines cs)) (inkLines (Text.lines out)) := by
  obtain ⟨hlen, hzip⟩ := List.forall₂_iff_zip.mp (lines_reformat h hout)
  refine List.forall₂_iff_zip.mpr ⟨hlen, fun {a b} hab => ?_⟩
  have ha := mem_of_mem_inkLines (List.of_mem_zip hab).1
  have hfree := Text.newline_not_mem_of_mem_lines ha
  have hclosed := h a.1 ha
  rw [Region.pieces_line_eq hfree] at hclosed
  exact Region.readings_relaid hfree hclosed (hzip hab)

/-- **Reformatting does not change the causes that a report gives**, nor their
order, when every opener is closed on its line. -/
theorem analyze_reformat (lint : LintOptions) (o : ReflowOptions) (cs : List Char)
    (h : ∀ f ∈ (analyze lint cs).findings, f.cause ≠ .unclosedOutput ∧
      f.cause ≠ .unclosedStatement ∧ f.cause ≠ .unclosedComment) :
    ∃ out, reformat Printer.builtin o cs = .ok out ∧
      (analyze lint out).findings.map (·.cause) = (analyze lint cs).findings.map (·.cause) := by
  have hclosed : ∀ l ∈ Text.lines cs, Closed (Region.pieces .line l) := by
    apply closed_lines
    apply closed_of_analyze lint
    intro f hf form
    obtain ⟨houtput, hstatement, hcomment⟩ := h f hf
    cases form with
    | output => exact houtput
    | statement => exact hstatement
    | comment => exact hcomment
  have hout := Layout.reformat_builtin o cs
  refine ⟨_, hout, ?_⟩
  symm
  apply causes_lines
  · exact fun l hl => ⟨Text.newline_not_mem_of_mem_lines hl, hclosed l hl⟩
  · exact fun l hl =>
      ⟨Text.newline_not_mem_of_mem_lines hl, closed_lines_reformat hclosed hout l hl⟩
  · exact readings_reformat hclosed hout

/-- A block that is never closed is still reported. -/
theorem analyze_reformat_open_block :
    (∀ f ∈ (analyze .standard "  {%if a%}\n{{ b }}".toList).findings,
        f.cause ≠ .unclosedOutput ∧ f.cause ≠ .unclosedStatement ∧ f.cause ≠ .unclosedComment) ∧
      ∃ out, reformat Printer.builtin .standard "  {%if a%}\n{{ b }}".toList = .ok out ∧
        (analyze .standard out).findings.map (·.cause) = [.unclosedBlock .conditional] := by
  have h : ∀ f ∈ (analyze .standard "  {%if a%}\n{{ b }}".toList).findings,
      f.cause ≠ .unclosedOutput ∧ f.cause ≠ .unclosedStatement ∧
        f.cause ≠ .unclosedComment := by decide +kernel
  obtain ⟨out, hout, hcauses⟩ := analyze_reformat .standard .standard _ h
  refine ⟨h, out, hout, ?_⟩
  rw [hcauses]
  decide +kernel

end TwigTemplate.Analysis
