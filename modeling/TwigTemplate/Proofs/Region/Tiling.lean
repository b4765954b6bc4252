import Mathlib.Data.List.Chain
import TwigTemplate.Proofs.Region.Cutting

/-!
# Scanned regions tile the text

The scan cuts a text into pieces and gives each piece its place.  This file
proves that nothing is lost, nothing is read twice and every place is right.

* `Tiling`: what a list of regions has to satisfy to be a cut of a text.
* `plain_of_mem_pieces`, `separated_pieces`: plain text holds no opener and is
  never cut in two.
* `lineEnd_of_pieces`: an opener that is never closed stops before a newline or
  at the end of the text.
* `scan_tiling`: both scans return a tiling, for every text.
-/

namespace TwigTemplate.Region

theorem raw_ne_nil_of_mem_addText {c : Char} {ps : List Piece} (h : ∀ p ∈ ps, p.raw ≠ []) :
    ∀ p ∈ Piece.addText c ps, p.raw ≠ [] := by
  unfold Piece.addText
  split
  · intro p hp
    rcases List.mem_cons.mp hp with rfl | hp
    · simp
    · exact h p (List.mem_cons_of_mem _ hp)
  · intro p hp
    rcases List.mem_cons.mp hp with rfl | hp
    · simp
    · exact h p hp

theorem raw_ne_nil_of_mem_pieces {reach : Reach} {cs : List Char} :
    ∀ p ∈ pieces reach cs, p.raw ≠ [] := by
  fun_induction pieces reach cs with
  | case1 => simp
  | case2 c r _ ih => exact raw_ne_nil_of_mem_addText ih
  | case3 c r form _ n _ ih =>
    intro p hp
    rcases List.mem_cons.mp hp with rfl | hp
    · simp
    · exact ih p hp
  | case4 c r form _ _ ih =>
    intro p hp
    rcases List.mem_cons.mp hp with rfl | hp
    · simp
    · exact ih p hp

/-! ### Plain text -/

theorem separated_addText {c : Char} {ps : List Piece}
    (h : ps.IsChain fun p q => p.kind ≠ .text ∨ q.kind ≠ .text) :
    (Piece.addText c ps).IsChain fun p q => p.kind ≠ .text ∨ q.kind ≠ .text := by
  unfold Piece.addText
  split
  · next raw more =>
    cases more with
    | nil => exact List.isChain_singleton _
    | cons q more =>
      rw [List.isChain_cons_cons] at h ⊢
      exact h
  · next hno =>
    cases ps with
    | nil => exact List.isChain_singleton _
    | cons q more =>
      refine List.isChain_cons_cons.mpr ⟨Or.inr fun he => ?_, h⟩
      obtain ⟨kind, raw⟩ := q
      obtain rfl : kind = .text := he
      exact hno raw more rfl

theorem separated_pieces (reach : Reach) (cs : List Char) :
    (pieces reach cs).IsChain fun p q => p.kind ≠ .text ∨ q.kind ≠ .text := by
  fun_induction pieces reach cs with
  | case1 => exact List.isChain_nil
  | case2 c r _ ih => exact separated_addText ih
  | case3 c r form _ n _ ih =>
    exact List.isChain_cons.mpr ⟨fun q _ => Or.inl (by simp), ih⟩
  | case4 c r form _ _ ih =>
    exact List.isChain_cons.mpr ⟨fun q _ => Or.inl (by simp), ih⟩

theorem plain_addText {reach : Reach} {c : Char} {r : List Char} {form : Form}
    (hopen : Form.opening? (c :: r) = none)
    (h : ∀ p ∈ pieces reach r, p.kind = .text → ¬ form.opener <:+: p.raw) :
    ∀ p ∈ Piece.addText c (pieces reach r), p.kind = .text → ¬ form.opener <:+: p.raw := by
  have hspell := spell_pieces reach r
  unfold Piece.addText
  split
  · next raw more heq =>
    rw [heq] at h hspell
    rw [spell_cons] at hspell
    intro p hp hkind hin
    rcases List.mem_cons.mp hp with rfl | hp
    · rcases List.infix_cons_iff.mp hin with ⟨rest, hrest⟩ | hin
      · have hfront : c :: r = form.opener ++ (rest ++ spell more) := by
          rw [← hspell, ← List.append_assoc, hrest, List.cons_append]
        rw [hfront, opening?_opener] at hopen
        exact absurd hopen (by simp)
      · exact h _ (List.mem_cons_self) rfl hin
    · exact h p (List.mem_cons_of_mem _ hp) hkind hin
  · intro p hp hkind hin
    rcases List.mem_cons.mp hp with rfl | hp
    · have := hin.length_le
      simp [Form.opener] at this
    · exact h p hp hkind hin

/-- **Plain text holds no opener.** -/
theorem plain_of_mem_pieces {reach : Reach} {cs : List Char} (form : Form) :
    ∀ p ∈ pieces reach cs, p.kind = .text → ¬ form.opener <:+: p.raw := by
  fun_induction pieces reach cs with
  | case1 => simp
  | case2 c r hopen ih => exact plain_addText hopen ih
  | case3 c r other _ n _ ih =>
    intro p hp hkind
    rcases List.mem_cons.mp hp with rfl | hp
    · simp at hkind
    · exact ih p hp hkind
  | case4 c r other _ _ ih =>
    intro p hp hkind
    rcases List.mem_cons.mp hp with rfl | hp
    · simp at hkind
    · exact ih p hp hkind

/-! ### Template code and lines -/

/-- **An unclosed opener stops with its line.** -/
theorem lineEnd_of_pieces {reach : Reach} {cs : List Char} {before after : List Piece} {p : Piece}
    {form : Form} (hcut : pieces reach cs = before ++ p :: after)
    (hkind : p.kind = .unterminated form) :
    '\n' ∉ p.raw ∧ ∀ c ∈ (spell after).head?, c = '\n' := by
  obtain ⟨text, back, hcode, rfl⟩ := exists_cutsCode hcut (by simp [hkind])
  rw [spell_pieces]
  cases hcode with
  | code => simp at hkind
  | leftOpen hbody hback _ =>
    rw [List.mem_append, not_or]
    exact ⟨⟨newline_not_mem_opener _, hbody⟩, hback⟩

/-- **A scan by lines keeps template code on its line.** -/
theorem oneLine_of_mem_pieces {cs : List Char} {form : Form} {p : Piece}
    (hp : p ∈ pieces .line cs) (hkind : p.kind = .template form) : '\n' ∉ p.raw := by
  obtain ⟨text, back, hcode⟩ := exists_cutsCode_of_mem hp (by simp [hkind])
  cases hcode with
  | @code other body back hlen =>
    have hbody := (lengthAfterOpener?_bound hlen).2 rfl
    rw [List.take_left] at hbody
    rw [List.mem_append, not_or]
    exact ⟨newline_not_mem_opener other, hbody⟩
  | leftOpen => simp at hkind

/-! ### Places -/

/-- The label and the text of a region, without its place. -/
def piece (r : Region) : Piece := ⟨r.kind, r.raw⟩

@[simp] theorem map_piece_locate (start : Point) (ps : List Piece) :
    (locate start ps).map piece = ps := by
  induction ps generalizing start with
  | nil => rfl
  | cons p ps ih => simp [locate, piece, ih]

/-- Regions that follow one another from a point on, each ending where moving
past its text leads. -/
inductive Chained : Point → List Region → Prop
  | nil (start : Point) : Chained start []
  | cons {r : Region} {rs : List Region} : r.stop = r.start.advance r.raw → Chained r.stop rs →
      Chained r.start (r :: rs)

theorem chained_locate (start : Point) (ps : List Piece) : Chained start (locate start ps) := by
  induction ps generalizing start with
  | nil => exact .nil start
  | cons p ps ih =>
    exact .cons (r := ⟨p.kind, start, start.advance p.raw, p.raw⟩) rfl (ih (start.advance p.raw))

/-- A **tiling** of a text from a point on: what it means that the regions are
the text, cut at the right places. -/
structure Tiling (reach : Reach) (start : Point) (cs : List Char) (rs : List Region) : Prop where
  covers : rs.flatMap (·.raw) = cs
  chained : Chained start rs
  nonempty : ∀ r ∈ rs, r.raw ≠ []
  separated : rs.IsChain fun r s => r.kind ≠ .text ∨ s.kind ≠ .text
  plain : ∀ r ∈ rs, r.kind = .text → ∀ form : Form, ¬ form.opener <:+: r.raw
  /-- An unclosed opener stops before a newline or at the end of the text. -/
  lineEnd : ∀ (before after : List Region) (r : Region) (form : Form), rs = before ++ r :: after →
    r.kind = .unterminated form → '\n' ∉ r.raw ∧ ∀ c ∈ (after.flatMap (·.raw)).head?, c = '\n'
  oneLine : reach = .line → ∀ r ∈ rs, ∀ form : Form, r.kind = .template form → '\n' ∉ r.raw
  /-- The scan makes no more regions than there are characters. -/
  bounded : rs.length ≤ cs.length

theorem flatMap_raw_eq_spell (rs : List Region) : rs.flatMap (·.raw) = spell (rs.map piece) := by
  simp [spell, List.flatMap_map, piece]

theorem length_le_length_spell {ps : List Piece} (h : ∀ p ∈ ps, p.raw ≠ []) :
    ps.length ≤ (spell ps).length := by
  induction ps with
  | nil => simp
  | cons p ps ih =>
    have hpos := List.length_pos_iff.mpr (h p List.mem_cons_self)
    have hrest := ih fun q hq => h q (List.mem_cons_of_mem _ hq)
    simp only [List.length_cons, spell_cons, List.length_append]
    omega

/-- The pieces of a text, put in their places, tile it. -/
theorem tiling_locate (reach : Reach) (start : Point) (cs : List Char) :
    Tiling reach start cs (locate start (pieces reach cs)) := by
  have hmap := map_piece_locate start (pieces reach cs)
  have hmem : ∀ r ∈ locate start (pieces reach cs), piece r ∈ pieces reach cs := by
    intro r hr
    rw [← hmap]
    exact List.mem_map_of_mem hr
  have hnonempty : ∀ r ∈ locate start (pieces reach cs), r.raw ≠ [] := fun r hr =>
    raw_ne_nil_of_mem_pieces (piece r) (hmem r hr)
  have hlength : (locate start (pieces reach cs)).length = (pieces reach cs).length := by
    rw [← List.length_map (f := piece), hmap]
  exact
    { covers := by rw [flatMap_raw_eq_spell, hmap, spell_pieces]
      chained := chained_locate start _
      nonempty := hnonempty
      separated := by
        have h := separated_pieces reach cs
        rw [← hmap, List.isChain_map] at h
        exact h
      plain := fun r hr hkind form => plain_of_mem_pieces form (piece r) (hmem r hr) hkind
      lineEnd := by
        intro before after r form hcut hkind
        have hpieces : pieces reach cs = before.map piece ++ piece r :: after.map piece := by
          rw [← hmap, hcut, List.map_append, List.map_cons]
        have h := lineEnd_of_pieces hpieces (show (piece r).kind = _ from hkind)
        rw [flatMap_raw_eq_spell]
        exact h
      oneLine := by
        rintro rfl r hr form hkind
        exact oneLine_of_mem_pieces (hmem r hr) hkind
      bounded := by
        rw [hlength]
        have hne : ∀ p ∈ pieces reach cs, p.raw ≠ [] := raw_ne_nil_of_mem_pieces
        have h := length_le_length_spell hne
        rwa [spell_pieces] at h }

/-- **Scanned regions tile the text**, whether a line with any number is scanned
or a whole document. -/
theorem scan_tiling (cs : List Char) :
    (∀ line : Nat, Tiling .line ⟨line, 1, 0⟩ cs (ofLine cs line)) ∧
      Tiling .document .origin cs (ofDocument cs) :=
  ⟨fun line => tiling_locate .line ⟨line, 1, 0⟩ cs, tiling_locate .document .origin cs⟩

end TwigTemplate.Region
