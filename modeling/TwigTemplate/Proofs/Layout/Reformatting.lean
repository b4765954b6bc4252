import TwigTemplate.Layout.Reformat
import TwigTemplate.Proofs.Layout.Reindenting
import TwigTemplate.Proofs.Layout.Restoring
import TwigTemplate.Proofs.Region.Spacing

/-!
# Reformatting with the built-in printer

The steps put together.  The built-in printer moves the slots of a document about
without looking at the regions, so every placeholder is still there when the
regions are put back.

* `printedSlots`: the slots of a document as they are printed; `relaid_printedSlots`:
  their layout alone is new.
* `reformat_builtin`: what reformatting returns, in terms of them.
* `reformat_builtin_solid`: **reformatting never fails and changes blanks alone**.
-/

namespace TwigTemplate.Layout

open Text (isBlank inkBy solid)
open Slot (render fill cut regionTexts Relaid)

/-! ### Indentation is blank -/

theorem isBlank_of_mem_indentUnit (o : PrinterOptions) : ∀ c ∈ o.indentUnit, isBlank c = true := by
  intro c hc
  rw [PrinterOptions.indentUnit] at hc
  split at hc
  · obtain rfl := List.mem_singleton.mp hc
    decide
  · obtain rfl := (List.mem_replicate.mp hc).2
    decide

theorem newline_not_mem_indentUnit (o : PrinterOptions) : '\n' ∉ o.indentUnit := by
  intro hc
  rw [PrinterOptions.indentUnit] at hc
  split at hc
  · exact absurd (List.mem_singleton.mp hc) (by decide)
  · exact absurd (List.mem_replicate.mp hc).2 (by decide)

/-! ### What is printed -/

/-- The slots of a document, laid out by the built-in printer. -/
def printedSlots (o : PrinterOptions) (cs : List Char) : List Slot :=
  layOut o Slot.isBlank Slot.newline (o.indentUnit.map Slot.plain) (lineDeltas (protect cs).text)
    (cut .document cs)

/-- **Printing changes the layout alone.** -/
theorem relaid_printedSlots (o : PrinterOptions) (cs : List Char) :
    Relaid (cut .document cs) (printedSlots o cs) := by
  have hblank : ∀ s ∈ o.indentUnit.map Slot.plain, Slot.isBlank s = true := by
    intro s hs
    obtain ⟨c, hc, rfl⟩ := List.mem_map.mp hs
    exact isBlank_of_mem_indentUnit o c hc
  have hfree : Slot.newline ∉ o.indentUnit.map Slot.plain := by
    intro hs
    obtain ⟨c, hc, he⟩ := List.mem_map.mp hs
    obtain rfl : c = '\n' := by simpa [Slot.newline] using he
    exact newline_not_mem_indentUnit o hc
  exact (inkBy_layOut hblank hfree).symm

theorem length_regions (cs : List Char) :
    (protect cs).regions.length = (regionTexts .document cs).length := by
  rw [Slot.protect_regions, List.length_map]

theorem codes_printedSlots (o : PrinterOptions) (cs : List Char) :
    Slot.codes (printedSlots o cs) = List.range (protect cs).regions.length := by
  rw [← (relaid_printedSlots o cs).codes_eq, Slot.codes_cut, length_regions]

theorem printMarkup_protect (o : PrinterOptions) (cs : List Char) :
    printMarkup o (protect cs).text =
      render (placeholder (protect cs).tag) (printedSlots o cs) := by
  have htag := protect_isTag cs
  conv_lhs => rw [printMarkup_eq_layOut, Slot.protect_text]
  rw [layOut_render (fun n _ => newline_not_mem_placeholder htag n)
    (fun n _ => placeholder_inked htag n), ← Slot.protect_text]
  rfl

theorem tag_not_infix_cut (cs : List Char) :
    ¬ (protect cs).tag.map Slot.plain <:+: cut .document cs := by
  rintro ⟨front, back, hcut⟩
  have htag := not_infix_freshTag cs "TWIGKIT".toList
  rw [← protect_tag] at htag
  apply htag
  have hrender := congrArg (render (fill (regionTexts .document cs))) hcut
  rw [Slot.render_cut, Slot.render_append, Slot.render_append, Slot.render_map_plain] at hrender
  exact ⟨_, _, hrender⟩

theorem tag_not_infix_printedSlots (o : PrinterOptions) (cs : List Char) :
    ¬ (protect cs).tag.map Slot.plain <:+: printedSlots o cs := by
  have htag := protect_isTag cs
  apply (relaid_printedSlots o cs).absent
  · simpa using htag.ne_nil
  · intro s hs
    obtain ⟨c, hc, rfl⟩ := List.mem_map.mp hs
    exact htag.solid c hc
  · exact tag_not_infix_cut cs

/-- The document printed, with its regions in place again. -/
def printedText (o : PrinterOptions) (cs : List Char) : List Char :=
  render (fill (protect cs).regions) (printedSlots o cs)

/-- **Every region is put back where its placeholder was printed.** -/
theorem printAround_builtin (o : PrinterOptions) (cs : List Char) :
    printAround Printer.builtin o cs =
      .ok (render (placeholder (protect cs).tag) (printedSlots o cs), printedText o cs) := by
  have hrestore := Protected.restore_render (p := protect cs) (protect_isTag cs)
    (tag_not_infix_printedSlots o cs) (by rw [codes_printedSlots])
  rw [printAround, Printer.builtin, printMarkup_protect]
  simp only [bind, Except.bind, pure, Except.pure, hrestore, printedText]

/-! ### What reformatting returns -/

/-- **Reformatting returns a document for every text.** -/
theorem reformat_builtin (o : ReflowOptions) (cs : List Char) :
    reformat Printer.builtin o cs =
      .ok (reindent o.printer.indentUnit o.markupIndent (printedText o.printer cs)) := by
  rw [reformat, printAround_builtin]
  rfl

theorem solid_fill_regions (cs : List Char) (n : Nat) :
    solid (fill (protect cs).regions n) = solid (fill (regionTexts .document cs) n) := by
  rw [fill, fill, Slot.protect_regions, List.getD_eq_getElem?_getD, List.getD_eq_getElem?_getD,
    List.getElem?_map]
  cases (regionTexts .document cs)[n]? with
  | none => rfl
  | some raw => exact Region.solid_normalizeSpacing raw

theorem solid_printedText (o : PrinterOptions) (cs : List Char) :
    solid (printedText o cs) = solid cs := by
  rw [printedText, ← (relaid_printedSlots o cs).solid_eq fun n _ => (solid_fill_regions cs n).symm,
    Slot.render_cut]

theorem solid_reindent {unit : List Char} (hunit : ∀ c ∈ unit, isBlank c = true)
    (hfree : '\n' ∉ unit) (keepIndent : Bool) (cs : List Char) :
    solid (reindent unit keepIndent cs) = solid cs := by
  have hnl : isBlank '\n' = true := by decide
  rw [solid, solid, ← Text.filter_flatten_inkBy hnl, inkBy_reindent hunit hfree,
    Text.filter_flatten_inkBy hnl]

/-- **Reformatting never fails and changes blanks alone.** -/
theorem reformat_builtin_solid (o : ReflowOptions) (cs : List Char) :
    ∃ out, reformat Printer.builtin o cs = .ok out ∧
      out.filter (!isBlank ·) = cs.filter (!isBlank ·) := by
  refine ⟨_, reformat_builtin o cs, ?_⟩
  rw [← solid, solid_reindent (isBlank_of_mem_indentUnit o.printer)
    (newline_not_mem_indentUnit o.printer), solid_printedText]
  rfl

end TwigTemplate.Layout
