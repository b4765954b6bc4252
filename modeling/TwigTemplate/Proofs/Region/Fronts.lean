import TwigTemplate.Proofs.Region.Lines
import TwigTemplate.Proofs.Region.Quiet

/-!
# Fronts of a line

A line that is cut off before a region still has the regions that stood there.  None of them is left
open, as an open region ends its line, and what closed them was found without looking further.

* `pieces_spell_front`: **a line that is cut off at a region is cut into the same pieces**.
-/

namespace TwigTemplate.Region

theorem opening?_of_append {c : Char} {x rest : List Char} {form : Form}
    (h : Form.opening? (c :: x) = some form) : Form.opening? (c :: (x ++ rest)) = some form := by
  have hcut := opening?_cons_eq_some h
  rw [← List.cons_append, hcut, List.append_assoc]
  exact opening?_opener form _

/-- **A line that is cut off at a region is cut into the same pieces** as before, and no region is
left open. -/
theorem pieces_spell_front {m : List Char} {ps after : List Piece} {p : Piece} (hm : '\n' ∉ m)
    (hp : p.kind ≠ .text) (h : pieces .document m = ps ++ p :: after) :
    pieces .document (spell ps) = ps ∧ Closed ps := by
  induction m using pieces_induction .document generalizing ps with
  | nil => exact absurd h (by simp [pieces])
  | char c m hopen ih =>
    rw [pieces_char hopen] at h
    obtain ⟨front, hfront, rfl⟩ := exists_of_addText_eq hp h
    rw [List.mem_cons, not_or] at hm
    obtain ⟨hpieces, hclosed⟩ := ih hm.2 hfront
    have hcut : m = spell front ++ spell (p :: after) := by
      rw [← spell_append, ← hfront, spell_pieces]
    have hnone : Form.opening? (c :: spell front) = none := by
      cases hfound : Form.opening? (c :: spell front) with
      | none => rfl
      | some form => exact absurd (hopen.symm.trans (hcut ▸ opening?_of_append hfound)) (by simp)
    rw [spell_addText, pieces_char hnone, hpieces]
    exact ⟨rfl, closed_addText.mpr hclosed⟩
  | code form body back hlen ih =>
    rw [pieces_code hlen] at h
    cases ps with
    | nil => exact ⟨by rw [spell_nil, pieces], fun _ hmem => absurd hmem List.not_mem_nil⟩
    | cons q ps =>
      obtain ⟨rfl, hrest⟩ : _ ∧ pieces .document back = ps ++ p :: after := List.cons.inj h
      obtain ⟨hpieces, hclosed⟩ := ih (fun hmem => hm (by simp [hmem])) hrest
      have hcut : body ++ back = (body ++ spell ps) ++ spell (p :: after) := by
        rw [List.append_assoc, ← spell_append, ← hrest, spell_pieces]
      rw [hcut] at hlen
      have hlen := lengthAfterOpener?_of_append hlen (by simp)
      refine ⟨?_, List.forall_mem_cons.mpr ⟨by simp, hclosed⟩⟩
      rw [spell_cons, List.append_assoc, pieces_code hlen, hpieces]
  | leftOpen form body back hbody hback hlen =>
    -- The line ends with the region that is left open.
    obtain rfl := eq_nil_of_line hback fun hmem => hm (by simp [hmem])
    rw [pieces_leftOpen hbody hback hlen, pieces] at h
    cases ps with
    | nil => exact ⟨by rw [spell_nil, pieces], fun _ hmem => absurd hmem List.not_mem_nil⟩
    | cons q ps => exact absurd (List.cons.inj h).2 (by simp)

end TwigTemplate.Region
