import TwigTemplate.Proofs.Layout.Slots
import TwigTemplate.Proofs.Text.Search

/-!
# Restoring undoes protecting

A placeholder is a tag between underscores, and the tag occurs nowhere in the
document.  Restoring looks for the tag alone, so it must be shown that the tag is
found at the placeholders and nowhere else, however the text around them looks.

* `IsTag`: what a tag is made of.  `freshTag_isTag`, `not_infix_freshTag`: a
  document's tag is one, and does not occur in it.
* `putBack_render`: putting back goes through a row of slots place by place.
* `restore_render`: a text in which each placeholder stands once, in any order,
  and no tag stands between them, is restored.
-/

namespace TwigTemplate.Layout

open Slot

/-! ### Tags -/

/-- A word that placeholders can be made of. -/
structure IsTag (tag : List Char) : Prop where
  ne_nil : tag ≠ []
  not_mem_underscore : '_' ∉ tag
  solid : ∀ c ∈ tag, Text.isBlank c = false

theorem IsTag.append_X {tag : List Char} (h : IsTag tag) : IsTag (tag ++ ['X']) where
  ne_nil := by simp
  not_mem_underscore := by
    rw [List.mem_append, not_or]
    exact ⟨h.not_mem_underscore, by decide⟩
  solid := by
    intro c hc
    rcases List.mem_append.mp hc with hc | hc
    · exact h.solid c hc
    · obtain rfl := List.mem_singleton.mp hc
      decide

theorem freshTag_isTag {cs tag : List Char} (h : IsTag tag) : IsTag (freshTag cs tag) := by
  fun_induction freshTag cs tag with
  | case1 tag _ ih => exact ih h.append_X
  | case2 => exact h

/-- **The tag does not occur in the document.** -/
theorem not_infix_freshTag (cs tag : List Char) : ¬ freshTag cs tag <:+: cs := by
  fun_induction freshTag cs tag with
  | case1 tag _ ih => exact ih
  | case2 tag hno => exact fun hin => hno (Text.occursIn_iff.mpr hin)

theorem protect_tag (cs : List Char) : (protect cs).tag = freshTag cs "TWIGKIT".toList := rfl

theorem protect_isTag (cs : List Char) : IsTag (protect cs).tag := by
  rw [protect_tag]
  refine freshTag_isTag ⟨by decide, by decide, ?_⟩
  intro c hc
  have hall : "TWIGKIT".toList.all (!Text.isBlank ·) = true := by decide
  have hone := List.all_eq_true.mp hall c hc
  exact Bool.not_eq_true' _ |>.mp hone

/-! ### Placeholders -/

theorem isBlank_of_isDigit {c : Char} (h : c.isDigit = true) : Text.isBlank c = false := by
  rw [Char.isDigit, Bool.and_eq_true, decide_eq_true_eq, decide_eq_true_eq] at h
  have hlow : 48 ≤ c.toNat := UInt32.le_iff_toNat_le.mp h.1
  have hhigh : c.toNat ≤ 57 := UInt32.le_iff_toNat_le.mp h.2
  simp only [Text.isBlank, Bool.or_eq_false_iff, Bool.and_eq_false_iff, decide_eq_false_iff_not,
    beq_eq_false_iff_ne]
  omega

theorem isBlank_of_mem_placeholder {tag : List Char} (htag : IsTag tag) {n : Nat} {c : Char}
    (hc : c ∈ placeholder tag n) : Text.isBlank c = false := by
  rw [placeholder, placeholderStart, List.mem_append, List.mem_append, List.mem_append,
    List.mem_append] at hc
  have hscore : ∀ d ∈ ['_', '_'], Text.isBlank d = false := by
    intro d hd
    obtain rfl : d = '_' := by simpa using hd
    decide
  rcases hc with ((((hc | hc) | hc) | hc) | hc)
  · exact hscore c hc
  · exact htag.solid c hc
  · exact hscore c (List.mem_cons_of_mem _ hc)
  · exact isBlank_of_isDigit (Nat.isDigit_of_mem_toDigits (by decide) (by decide) hc)
  · exact hscore c hc

theorem inked_of_solid {cs : List Char} (hne : cs ≠ []) (h : ∀ c ∈ cs, Text.isBlank c = false) :
    Inked cs :=
  ⟨hne, fun c hc => h c (List.mem_of_mem_head? hc), fun c hc => h c (List.mem_of_mem_getLast? hc)⟩

theorem placeholder_inked {tag : List Char} (htag : IsTag tag) (n : Nat) :
    Inked (placeholder tag n) :=
  inked_of_solid (by simp [placeholder, placeholderStart]) fun _ =>
    isBlank_of_mem_placeholder htag

theorem newline_not_mem_placeholder {tag : List Char} (htag : IsTag tag) (n : Nat) :
    '\n' ∉ placeholder tag n := fun h =>
  absurd (isBlank_of_mem_placeholder htag h) (by decide)

theorem placeholderRest?_toDigits (n : Nat) (rest : List Char) :
    Protected.placeholderRest? (Nat.toDigits 10 n ++ (['_', '_'] ++ rest)) = some (n, rest) := by
  have hdigits : ∀ c ∈ Nat.toDigits 10 n, c.isDigit = true := fun c hc =>
    Nat.isDigit_of_mem_toDigits (by decide) (by decide) hc
  have htake : (Nat.toDigits 10 n ++ (['_', '_'] ++ rest)).takeWhile Char.isDigit =
      Nat.toDigits 10 n := by
    rw [List.takeWhile_append_of_pos hdigits]
    simp
  have hdrop : (Nat.toDigits 10 n ++ (['_', '_'] ++ rest)).dropWhile Char.isDigit =
      ['_', '_'] ++ rest := by
    rw [List.dropWhile_append_of_pos hdigits]
    simp
  have hne : Nat.toDigits 10 n ≠ [] := Nat.toDigits_ne_nil
  have hnumber : Protected.number? (Nat.toDigits 10 n) = some n := by
    rw [Protected.number?, if_neg (by simp), ← Nat.ofDigitChars_eq_foldl,
      Nat.ofDigitChars_ten_toDigits]
  rw [Protected.placeholderRest?, htake, hdrop, hnumber, Text.after?_append]
  rfl

/-! ### Where a placeholder starts -/

theorem tag_infix_placeholderStart (tag : List Char) : tag <:+: placeholderStart tag :=
  ⟨['_', '_'], ['_'], rfl⟩

/-- **The start of a placeholder is found where it stands**, whatever precedes it:
a match that began earlier would put the tag into the text before. -/
theorem cutAt?_placeholderStart {tag u v : List Char} (htag : IsTag tag) (hu : ¬ tag <:+: u) :
    Text.cutAt? (placeholderStart tag) (u ++ (placeholderStart tag ++ v)) = some (u, v) := by
  apply Text.cutAt?_append (by simp [placeholderStart])
  intro w hw hne hpre
  obtain ⟨c, w, rfl⟩ := List.exists_cons_of_ne_nil hne
  have htail : '_' :: tag <+: w ++ (placeholderStart tag ++ v) := by
    have : '_' :: ('_' :: tag) <+: c :: (w ++ (placeholderStart tag ++ v)) :=
      List.IsPrefix.trans ⟨['_'], rfl⟩ hpre
    exact (List.cons_prefix_cons.mp this).2
  cases w with
  | nil =>
    have hsecond : tag <+: '_' :: (tag ++ ('_' :: v)) := by
      simpa [placeholderStart] using (List.cons_prefix_cons.mp htail).2
    obtain ⟨d, t, rfl⟩ := List.exists_cons_of_ne_nil htag.ne_nil
    obtain ⟨rfl, -⟩ := List.cons_prefix_cons.mp hsecond
    exact htag.not_mem_underscore List.mem_cons_self
  | cons d w =>
    have hin : tag <+: w ++ '_' :: ('_' :: (tag ++ ('_' :: v))) := by
      simpa [placeholderStart] using (List.cons_prefix_cons.mp htail).2
    have hshort := Text.prefix_of_prefix_append_cons htag.not_mem_underscore hin
    have hsuffix : w <:+ c :: d :: w := ⟨[c, d], rfl⟩
    exact hu (hshort.isInfix.trans (hsuffix.trans hw).isInfix)

/-! ### Putting the regions back -/

namespace Protected

variable {p : Protected}

theorem claim?_eq {seen : List Nat} {n : Nat} {rest : List Char} (hn : n < p.regions.length)
    (hseen : n ∉ seen) :
    claim? p seen (Nat.toDigits 10 n ++ (['_', '_'] ++ rest)) =
      some (n, fill p.regions n, rest) := by
  rw [claim?, placeholderRest?_toDigits]
  have hget : p.regions[n]? = some (fill p.regions n) := by
    rw [fill, List.getD_eq_getElem?_getD, List.getElem?_eq_getElem hn]
    rfl
  simp [hget, hseen, bind, pure]

theorem putBack_of_none {seen : List Nat} {cs : List Char}
    (hcut : Text.cutAt? (placeholderStart p.tag) cs = none) : putBack p seen cs = (cs, seen) := by
  rw [putBack]
  split
  · rfl
  · next heq => rw [hcut] at heq; exact absurd heq (by simp)

theorem putBack_of_claim {seen : List Nat} {cs before rest region after : List Char} {n : Nat}
    (hcut : Text.cutAt? (placeholderStart p.tag) cs = some (before, rest))
    (hclaim : claim? p seen rest = some (n, region, after)) :
    putBack p seen cs =
      (before ++ region ++ (putBack p (n :: seen) after).1, (putBack p (n :: seen) after).2) := by
  rw [putBack]
  split
  · next heq => rw [hcut] at heq; exact absurd heq (by simp)
  · next before' rest' heq =>
    obtain ⟨rfl, rfl⟩ : before = before' ∧ rest = rest' := by
      rw [hcut] at heq
      simpa using heq
    split
    · next heq' =>
      rw [hclaim] at heq'
      obtain ⟨rfl, rfl, rfl⟩ : n = _ ∧ region = _ ∧ after = _ := by simpa using heq'
      rfl
    · next heq' => rw [hclaim] at heq'; exact absurd heq' (by simp)

/-- **Putting back goes through a row of slots place by place.**  No tag stands
between the places, every place has its region, and none comes twice. -/
theorem putBack_render (htag : IsTag p.tag) {T : List Slot} {seen : List Nat}
    (hfree : ¬ p.tag.map plain <:+: T) (hnodup : (codes T).Nodup)
    (hcodes : ∀ n ∈ codes T, n < p.regions.length ∧ n ∉ seen) :
    putBack p seen (render (placeholder p.tag) T) =
      (render (fill p.regions) T, (codes T).reverse ++ seen) := by
  induction hlen : T.length using Nat.strong_induction_on generalizing T seen with
  | _ k ih =>
    rcases eq_plain_or_code T with ⟨u, rfl⟩ | ⟨u, n, U, rfl⟩
    · have hu : ¬ placeholderStart p.tag <:+: u := fun hin =>
        hfree (((tag_infix_placeholderStart p.tag).trans hin).map plain)
      rw [render_map_plain, render_map_plain, codes_map_plain,
        putBack_of_none (Text.cutAt?_eq_none hu)]
      rfl
    · have hu : ¬ p.tag <:+: u := fun hin =>
        hfree ((hin.map plain).trans ⟨[], code n :: U, by simp⟩)
      have hU : ¬ p.tag.map plain <:+: U := fun hin =>
        hfree (hin.trans ⟨u.map plain ++ [code n], [], by simp⟩)
      have hcodesT : codes (u.map plain ++ code n :: U) = n :: codes U := by
        rw [codes_append, codes_map_plain]
        rfl
      rw [hcodesT] at hnodup hcodes
      obtain ⟨hnU, hnodupU⟩ := List.nodup_cons.mp hnodup
      obtain ⟨hn, hseen⟩ := hcodes n List.mem_cons_self
      have hcodesU : ∀ m ∈ codes U, m < p.regions.length ∧ m ∉ n :: seen := by
        intro m hm
        obtain ⟨hm', hnew⟩ := hcodes m (List.mem_cons_of_mem _ hm)
        rw [List.mem_cons, not_or]
        exact ⟨hm', fun he => hnU (he ▸ hm), hnew⟩
      have hrec := ih U.length (by rw [← hlen]; simp; omega) hU hnodupU hcodesU rfl
      have htext : render (placeholder p.tag) (u.map plain ++ code n :: U) =
          u ++ (placeholderStart p.tag ++
            (Nat.toDigits 10 n ++ (['_', '_'] ++ render (placeholder p.tag) U))) := by
        rw [render_append, render_map_plain, render_code_cons, placeholder]
        simp
      rw [htext, putBack_of_claim (cutAt?_placeholderStart htag hu) (claim?_eq hn hseen), hrec,
        hcodesT, render_append, render_map_plain, render_code_cons]
      simp

/-- **A text in which each placeholder stands once is restored**, in whatever
order they stand and whatever stands between them, as long as it holds no tag. -/
theorem restore_render (htag : IsTag p.tag) {T : List Slot} (hfree : ¬ p.tag.map plain <:+: T)
    (hcodes : (codes T).Perm (List.range p.regions.length)) :
    p.restore (render (placeholder p.tag) T) = .ok (render (fill p.regions) T) := by
  have hnodup : (codes T).Nodup := hcodes.nodup_iff.mpr List.nodup_range
  have hnew : ∀ n ∈ codes T, n < p.regions.length ∧ n ∉ ([] : List Nat) := fun n hn =>
    ⟨List.mem_range.mp (hcodes.mem_iff.mp hn), by simp⟩
  have hput := putBack_render htag hfree hnodup hnew
  have hfound : (List.range p.regions.length).find?
      (fun n => !((codes T).reverse ++ []).contains n) = none := by
    rw [List.find?_eq_none]
    intro n hn
    simpa using hcodes.mem_iff.mpr hn
  rw [restore, hput]
  simp only [hfound]

end Protected

end TwigTemplate.Layout
