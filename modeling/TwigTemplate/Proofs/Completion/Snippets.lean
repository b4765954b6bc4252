import TwigTemplate.Proofs.Completion.Expansion
import TwigTemplate.Proofs.Region.Completing
import TwigTemplate.Proofs.Report.Names
import TwigTemplate.Vocabulary.Snippets

/-!
# Snippets as they are written out

A snippet is written out behind a line and goes on over lines of its own, which are indented.  None
of its names is unknown: the later lines are scanned by themselves, and of the first one a region
that starts before it may take the opener, so that the rest is plain text.

* `lines_indented`: the lines of a text that is put behind a line and indented.
* `known_of_sound`: **no name of a snippet is unknown**, wherever it is put.
-/

namespace TwigTemplate.Completion

open Vocabulary (Snippet)
open Region (Piece pieces locate piece)
open Analysis (Known)
open Text (isBlank)

/-! ### Indented lines -/

theorem lines_indented {indent : List Char} (hindent : '\n' ∉ indent) {m cs : List Char}
    (hm : '\n' ∉ m) (hcs : cs ≠ []) (hlast : cs.getLast? ≠ some '\n') (hreturn : '\r' ∉ cs)
    (hlines : ∀ l ∈ Text.lines cs, l ≠ []) : ∃ first later, Text.lines cs = first :: later ∧
      Text.lines (m ++ indentBy indent cs) = (m ++ first) :: later.map (indent ++ ·) := by
  induction cs using Text.line_induction generalizing m with
  | last l hfree =>
    have hmem : '\n' ∉ m ++ l := fun h => (List.mem_append.mp h).elim hm hfree
    refine ⟨l, [], ?_, ?_⟩
    · rw [Text.lines_of_not_mem hfree, if_neg (by simpa using hcs)]
    · rw [indentBy_of_not_mem indent hfree, Text.lines_of_not_mem hmem, if_neg (by simp [hcs])]
      rfl
  | line l cs hfree ih =>
    have hmem : '\n' ∉ m ++ l := fun h => (List.mem_append.mp h).elim hm hfree
    have hback : l.getLast? ≠ some '\r' := fun h =>
      hreturn (List.mem_append_left _ (List.mem_of_mem_getLast? h))
    have hdrop : Text.dropReturn l = l := if_neg hback
    rw [Text.lines_append_newline hfree, hdrop] at hlines
    obtain ⟨hne, hlines⟩ := List.forall_mem_cons.mp hlines
    have hnil : cs ≠ [] := by
      rintro rfl
      exact hlast (by simp)
    have hdrop' : Text.dropReturn (m ++ l) = m ++ l :=
      if_neg (by rw [List.getLast?_append_of_ne_nil _ hne]; exact hback)
    obtain ⟨first, later, hcut, hrest⟩ := ih hindent hnil (by
      rwa [List.getLast?_append_of_ne_nil _ (List.cons_ne_nil _ _),
        List.getLast?_cons_of_ne_nil hnil] at hlast)
      (fun h => hreturn (List.mem_append_right _ (List.mem_cons_of_mem _ h))) hlines
    refine ⟨l, first :: later, ?_, ?_⟩
    · rw [Text.lines_append_newline hfree, hdrop, hcut]
    · rw [indentBy_append, indentBy_of_not_mem indent hfree, indentBy_cons, if_pos rfl,
        List.cons_append, ← List.append_assoc, Text.lines_append_newline hmem, hdrop', hrest]
      rfl

/-! ### Known names -/

theorem mem_pieces_append {m l : List Char} (hm : '{' ∉ m) {p : Piece} :
    p ∈ pieces .line (m ++ l) → p.kind = .text ∨ p ∈ pieces .line l := by
  induction m with
  | nil => exact Or.inr
  | cons c m ih =>
    rw [List.mem_cons, not_or] at hm
    rw [List.cons_append, Region.pieces_char (by rw [Region.opening?_eq, if_neg (Ne.symm hm.1)])]
    intro hp
    unfold Piece.addText at hp
    split at hp
    · next raw more heq =>
      rcases List.mem_cons.mp hp with rfl | hp
      · exact Or.inl rfl
      · exact ih hm.2 (heq ▸ List.mem_cons_of_mem _ hp)
    · rcases List.mem_cons.mp hp with rfl | hp
      · exact Or.inl rfl
      · exact ih hm.2 hp

theorem piece_mem_of_mem_locate {start : Point} {ps : List Piece} {r : Region}
    (h : r ∈ locate start ps) : piece r ∈ ps := by
  rw [← Region.map_piece_locate start ps]
  exact List.mem_map_of_mem h

theorem exists_of_mem_ofLinesFrom {first : Nat} {ls : List (List Char)} {r : Region}
    (h : r ∈ (Region.ofLinesFrom first ls).flatten) : ∃ l ∈ ls, ∃ i, r ∈ Region.ofLine l i := by
  rw [Analysis.flatten_ofLinesFrom] at h
  obtain ⟨row, hrow, hr⟩ := List.mem_flatMap.mp h
  exact ⟨row.1, List.fst_mem_of_mem_zipIdx hrow, row.2, hr⟩

/-- What a snippet is when it is written out: lines of code whose names are known, the first one
with a brace only at its start. -/
structure Sound (body : List Char) : Prop where
  stops : ∀ part ∈ parts body, part.onLine
  lines : ∀ l ∈ Text.lines (expand [] body).1, l ≠ [] ∧ ∀ p ∈ pieces .line l, Known p
  first : ∀ l ∈ (Text.lines (expand [] body).1).head?, '{' ∉ l.drop 1
  ends : (expand [] body).1 ≠ [] ∧ (expand [] body).1.getLast? ≠ some '\n' ∧
    '\r' ∉ (expand [] body).1

theorem sound_of_mem_snippets {s : Snippet} (hs : s ∈ Vocabulary.snippets) : Sound s.body := by
  have hstops : ∀ s ∈ Vocabulary.snippets, ∀ part ∈ parts s.body, part.onLine := by
    decide +kernel
  have hlines : ∀ s ∈ Vocabulary.snippets, ∀ l ∈ Text.lines (expand [] s.body).1,
      l ≠ [] ∧ ∀ p ∈ pieces .line l, Known p := by
    decide +kernel
  have hfirst : ∀ s ∈ Vocabulary.snippets,
      ∀ l ∈ (Text.lines (expand [] s.body).1).head?, '{' ∉ l.drop 1 := by
    decide +kernel
  have hends : ∀ s ∈ Vocabulary.snippets, (expand [] s.body).1 ≠ [] ∧
      (expand [] s.body).1.getLast? ≠ some '\n' ∧ '\r' ∉ (expand [] s.body).1 := by
    decide +kernel
  exact ⟨hstops s hs, hlines s hs, hfirst s hs, hends s hs⟩

/-- **No name of a snippet is unknown**, wherever it is put. -/
theorem known_of_sound {indent m body : List Char}
    (hindent : ∀ c ∈ indent, isBlank c = true ∧ c ≠ '\n') (hm : '\n' ∉ m) (h : Sound body) :
    ∀ r ∈ (Region.ofLines (m ++ (expand indent body).1)).flatten,
      m.length < r.column ∨ 1 < r.line → Known (piece r) := by
  have hfree : '\n' ∉ indent := fun hmem => (hindent _ hmem).2 rfl
  have hbrace : '{' ∉ indent := fun hmem =>
    absurd (hindent _ hmem).1 (by decide)
  obtain ⟨first, later, hcut, hlines⟩ := lines_indented hfree hm h.ends.1 h.ends.2.1 h.ends.2.2
    fun l hl => (h.lines l hl).1
  have hmem : ∀ l ∈ first :: later, '\n' ∉ l ∧ ∀ p ∈ pieces .line l, Known p := fun l hl => by
    rw [← hcut] at hl
    exact ⟨Text.newline_not_mem_of_mem_lines hl, (h.lines l hl).2⟩
  obtain ⟨⟨hfirstFree, hfirst⟩, hlater⟩ := List.forall_mem_cons.mp hmem
  rw [expand_eq indent h.stops, Region.ofLines, hlines, Region.ofLinesFrom, List.flatten_cons]
  intro r hr hplace
  rcases List.mem_append.mp hr with hr | hr
  · have hline : '\n' ∉ m ++ first := fun hmem => (List.mem_append.mp hmem).elim hm hfirstFree
    have hcolumn : m.length < r.column :=
      hplace.resolve_right (by rw [Analysis.line_of_mem_ofLine hline r hr]; exact Nat.lt_irrefl 1)
    have hopener := h.first first (by rw [hcut]; rfl)
    rcases Region.mem_locate_append hm hfirstFree hopener r hr with hstart | hkind | hr
    · have hstart : r.column < 1 + m.length := hstart
      omega
    · exact Or.inl hkind
    · exact hfirst _ (piece_mem_of_mem_locate hr)
  · obtain ⟨row, hrow, i, hr⟩ := exists_of_mem_ofLinesFrom hr
    obtain ⟨l, hl, rfl⟩ := List.mem_map.mp hrow
    rcases mem_pieces_append hbrace (piece_mem_of_mem_locate hr) with hkind | hp
    · exact Or.inl hkind
    · exact (hlater l hl).2 _ hp

end TwigTemplate.Completion
