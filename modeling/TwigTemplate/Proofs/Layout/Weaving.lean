import TwigTemplate.Proofs.Layout.Reformatting

/-!
# Texts woven around placeholders

A printer may do what it likes with a protected text, as long as each placeholder
comes out once and no tag is written beside them.  Such a text is woven: a first
stretch, and behind each placeholder another one.

* `weave`: the text of the stretches with something written between them.
* `Slot.woven`: its row of slots.  `Slot.exists_woven`: every row is of this form.
* `Slot.infix_woven_iff`: a word that stands in a woven row stands in one stretch.
* `restore_weave`: **restoring undoes protecting**, for every order of the
  placeholders and all stretches without the tag.
-/

namespace TwigTemplate.Layout

open Slot

/-- The text `first`, and then for each of `more` what `f` writes for it and the
stretch of text behind it. -/
def weave {α : Type} (f : α → List Char) (first : List Char) (more : List (α × List Char)) :
    List Char :=
  first ++ more.flatMap fun e => f e.1 ++ e.2

theorem weave_nil {α : Type} (f : α → List Char) (first : List Char) : weave f first [] = first := by
  rw [weave, List.flatMap_nil, List.append_nil]

theorem weave_cons {α : Type} (f : α → List Char) (first : List Char) (e : α × List Char)
    (more : List (α × List Char)) :
    weave f first (e :: more) = first ++ (f e.1 ++ weave f e.2 more) := by
  rw [weave, List.flatMap_cons, weave, List.append_assoc]

/-! ### Woven rows of slots -/

namespace Slot

/-- The stretch `first`, and then the place and the stretch of each of `more`. -/
def woven (first : List Char) (more : List (Nat × List Char)) : List Slot :=
  first.map plain ++ more.flatMap fun e => code e.1 :: e.2.map plain

variable {f : Nat → List Char} {tag first : List Char} {more : List (Nat × List Char)}

theorem woven_nil (first : List Char) : woven first [] = first.map plain := by
  rw [woven, List.flatMap_nil, List.append_nil]

theorem woven_cons (first : List Char) (e : Nat × List Char) (more : List (Nat × List Char)) :
    woven first (e :: more) = first.map plain ++ code e.1 :: woven e.2 more := by
  rw [woven, List.flatMap_cons, woven, List.cons_append]

theorem render_woven : render f (woven first more) = weave f first more := by
  induction more generalizing first with
  | nil => rw [woven_nil, weave_nil, render_map_plain]
  | cons e more ih =>
    rw [woven_cons, weave_cons, render_append, render_map_plain, render_code_cons, ih]

theorem codes_woven : codes (woven first more) = more.map Prod.fst := by
  induction more generalizing first with
  | nil => rw [woven_nil, codes_map_plain, List.map_nil]
  | cons e more ih =>
    rw [woven_cons, codes_append, codes_map_plain, List.nil_append, codes, ih, List.map_cons]

theorem exists_woven (T : List Slot) : ∃ first more, T = woven first more := by
  induction T with
  | nil => exact ⟨[], [], rfl⟩
  | cons s T ih =>
    obtain ⟨first, more, rfl⟩ := ih
    cases s with
    | plain c => exact ⟨c :: first, more, rfl⟩
    | code n => exact ⟨[], (n, first) :: more, by rw [woven_cons, List.map_nil, List.nil_append]⟩

/-- The letter of a slot that holds one. -/
def letter? : Slot → Option Char
  | plain c => some c
  | code _ => none

theorem filterMap_letter? (cs : List Char) : (cs.map plain).filterMap letter? = cs := by
  rw [List.filterMap_map]
  exact List.filterMap_some

theorem map_plain_infix_iff {cs : List Char} :
    tag.map plain <:+: cs.map plain ↔ tag <:+: cs := by
  constructor
  · intro h
    have hletters := h.filterMap letter?
    rwa [filterMap_letter?, filterMap_letter?] at hletters
  · exact fun h => h.map plain

/-- **A word stands in a woven row when it stands in one of the stretches**: no
place is part of a word. -/
theorem infix_woven_iff :
    tag.map plain <:+: woven first more ↔ tag <:+: first ∨ ∃ e ∈ more, tag <:+: e.2 := by
  induction more generalizing first with
  | nil => simp [woven_nil, map_plain_infix_iff]
  | cons e more ih =>
    have hplace : code e.1 ∉ tag.map plain := by simp
    rw [woven_cons, List.exists_mem_cons_iff, ← ih]
    constructor
    · intro h
      rcases Text.infix_append_cons hplace h with h | h
      · exact Or.inl (map_plain_infix_iff.mp h)
      · exact Or.inr h
    · rintro (h | h)
      · exact (h.map plain).trans (List.prefix_append ..).isInfix
      · exact h.trans ((List.suffix_cons ..).trans (List.suffix_append ..)).isInfix

/-! ### The document with its regions squeezed -/

/-- The slots with the squeezed regions written in are the document with its
template regions squeezed. -/
theorem render_cut_regions (cs : List Char) :
    render (fill (protect cs).regions) (cut .document cs) =
      (Region.ofDocument cs).flatMap fun r =>
        if r.kind.isTemplate then Region.normalizeSpacing r.raw else r.raw := by
  have hpieces : (Region.ofDocument cs).map Region.piece = Region.pieces .document cs :=
    Region.map_piece_locate ..
  rw [cut, render_ofPieces_map, ← hpieces, List.flatMap_map]
  · rfl
  · intro i _
    rw [Nat.zero_add, protect_regions]
    rfl

end Slot

/-! ### Restoring what was woven -/

theorem not_occursIn_iff {needle cs : List Char} :
    Text.occursIn needle cs = false ↔ ¬ needle <:+: cs := by
  rw [← Bool.not_eq_true, Text.occursIn_iff]

/-- **Restoring undoes protecting.**  Whatever text a printer weaves around the
placeholders, in whatever order, is restored as long as it does not hold the tag.
A document does not hold its tag, so its protected text is such a weave, and is
restored to the document with its regions squeezed. -/
theorem restore_weave (cs : List Char) :
    (∀ (first : List Char) (more : List (Nat × List Char)),
      (more.map Prod.fst).Perm (List.range (protect cs).regions.length) →
      Text.occursIn (protect cs).tag first = false →
      (∀ e ∈ more, Text.occursIn (protect cs).tag e.2 = false) →
      (protect cs).restore (weave (placeholder (protect cs).tag) first more) =
        .ok (weave (fill (protect cs).regions) first more)) ∧
    Text.occursIn (protect cs).tag cs = false ∧
    (∃ (first : List Char) (more : List (Nat × List Char)),
      more.map Prod.fst = List.range (protect cs).regions.length ∧
      Text.occursIn (protect cs).tag first = false ∧
      (∀ e ∈ more, Text.occursIn (protect cs).tag e.2 = false) ∧
      (protect cs).text = weave (placeholder (protect cs).tag) first more) ∧
    (protect cs).restore (protect cs).text =
      .ok ((Region.ofDocument cs).flatMap fun r =>
        if r.kind.isTemplate then Region.normalizeSpacing r.raw else r.raw) := by
  have hcodes : codes (cut .document cs) = List.range (protect cs).regions.length := by
    rw [codes_cut, protect_regions, List.length_map]
  refine ⟨fun first more hperm hfirst hmore => ?_, ?_, ?_, ?_⟩
  · have hfree : ¬ (protect cs).tag.map plain <:+: woven first more := by
      rw [infix_woven_iff, not_or, not_exists]
      exact ⟨not_occursIn_iff.mp hfirst, fun e he => not_occursIn_iff.mp (hmore e he.1) he.2⟩
    rw [← render_woven, ← render_woven]
    exact Protected.restore_render (protect_isTag cs) hfree (by rwa [codes_woven])
  · exact not_occursIn_iff.mpr (not_infix_freshTag cs _)
  · obtain ⟨first, more, hcut⟩ := exists_woven (cut .document cs)
    have hfree := tag_not_infix_cut cs
    rw [hcut, infix_woven_iff, not_or, not_exists] at hfree
    refine ⟨first, more, by rw [← codes_woven, ← hcut, hcodes], not_occursIn_iff.mpr hfree.1,
      fun e he => not_occursIn_iff.mpr fun hin => hfree.2 e ⟨he, hin⟩, ?_⟩
    rw [protect_text, hcut, render_woven]
  · rw [protect_text, Protected.restore_render (protect_isTag cs) (tag_not_infix_cut cs)
      (by rw [hcodes]), render_cut_regions]

/-- Two regions come back in the other order, with digits and underscores around
their placeholders. -/
theorem restore_weave_swapped :
    ([(1, "1__".toList), (0, "__TWIGKI".toList)].map Prod.fst).Perm
        (List.range (protect "\x7b\x7b  a \x7d\x7d \x7b%b  %\x7d".toList).regions.length) ∧
      (protect "\x7b\x7b  a \x7d\x7d \x7b%b  %\x7d".toList).restore
          "____TWIGKIT_1__1____TWIGKIT_0____TWIGKI".toList =
        .ok "__\x7b%b %\x7d1__\x7b\x7b a \x7d\x7d__TWIGKI".toList := by
  have hperm : ([(1, "1__".toList), (0, "__TWIGKI".toList)].map Prod.fst).Perm
      (List.range (protect "\x7b\x7b  a \x7d\x7d \x7b%b  %\x7d".toList).regions.length) := by decide +kernel
  refine ⟨hperm, ?_⟩
  have hrestore := (restore_weave "\x7b\x7b  a \x7d\x7d \x7b%b  %\x7d".toList).1 "__".toList
    [(1, "1__".toList), (0, "__TWIGKI".toList)] hperm (by decide +kernel) (by decide +kernel)
  have hprinted : weave (placeholder (protect "\x7b\x7b  a \x7d\x7d \x7b%b  %\x7d".toList).tag) "__".toList
      [(1, "1__".toList), (0, "__TWIGKI".toList)] =
      "____TWIGKIT_1__1____TWIGKIT_0____TWIGKI".toList := by decide +kernel
  rw [hprinted] at hrestore
  rw [hrestore]
  decide +kernel

end TwigTemplate.Layout
