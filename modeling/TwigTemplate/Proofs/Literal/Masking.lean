import Mathlib.Data.List.DropRight
import TwigTemplate.Proofs.Literal
import TwigTemplate.Proofs.Region.Quoted
import TwigTemplate.Proofs.Text.Bytes
import TwigTemplate.Proofs.Text.Ink

/-!
# Masks and splits agree

A mask and a split go through a text in one pass each, and show where its literals lie in two ways.
Seen from outside, a literal goes from a quote to the next equal quote that is not escaped, over
newlines too, and a quote without such a partner opens a literal that goes to the end of the text.

* `Held`, `Clear`: what stands in a literal, and the texts behind which no literal is open.
* `after_eq_outside_iff`: **the pass is outside exactly behind a clear text**.
* `maskFrom_append`, `width8_maskFrom`, `maskFrom_maskFrom`: a mask goes character by character,
  has the width of its text, and is masked already.
* `joinWith_splitFrom`, `splitFrom_append_of_uncut`: a split loses nothing but separators, and cuts
  at those outside alone.
* `mask_split_agree`: **the parts of a text are as wide as those of its mask**.
-/

namespace TwigTemplate.Literal

open Region (EndsEscape isQuote ne_backslash_of_isQuote)
open Text (joinWith splitAt splitAt_eq_splitOn width8 width8_append width8_cons)

/-! ### Clear texts -/

/-- A text that does not leave the literal of `quote` that it starts in: every `quote` in it is
escaped. -/
def Held (quote : Char) (inner : List Char) : Prop :=
  ∀ front back, inner = front ++ quote :: back → EndsEscape front

/-- A text behind which no literal is open. -/
inductive Clear : List Char → Prop
  | nil : Clear []
  | char {c : Char} {cs : List Char} : isQuote c = false → Clear cs → Clear (c :: cs)
  | literal {q : Char} {inner cs : List Char} : isQuote q = true → Held q inner →
      ¬ EndsEscape inner → Clear cs → Clear (q :: (inner ++ q :: cs))

theorem endsEscape_concat (cs : List Char) (c : Char) :
    EndsEscape (cs ++ [c]) ↔ c = '\\' ∧ ¬ EndsEscape cs := by
  rw [EndsEscape, EndsEscape, List.rtakeWhile_concat]
  by_cases hc : c = '\\'
  · rw [if_pos (by simpa using hc), List.length_append, List.length_singleton,
      and_iff_right hc]
    omega
  · rw [if_neg (by simpa using hc)]
    exact iff_of_false (by decide) fun h => hc h.1

section Held

variable {q c : Char} {cs inner : List Char}

theorem Held.of_append {ds : List Char} (h : Held q (cs ++ ds)) : Held q cs :=
  fun front back hcut => h front (back ++ ds) (by rw [hcut]; simp)

theorem held_nil : Held q [] := fun _ _ hcut => absurd hcut (by simp)

/-- One more character stays in the literal unless it is a quote that is not escaped. -/
theorem held_concat_iff : Held q (cs ++ [c]) ↔ Held q cs ∧ (c = q → EndsEscape cs) := by
  constructor
  · intro h
    exact ⟨h.of_append, fun hc => h cs [] (by rw [hc])⟩
  · rintro ⟨hcs, hc⟩ front back hcut
    rcases back.eq_nil_or_concat with rfl | ⟨back, d, rfl⟩
    · obtain ⟨rfl, hlast⟩ := List.append_inj' hcut rfl
      exact hc (List.cons.inj hlast).1
    · rw [List.concat_eq_append, ← List.cons_append, ← List.append_assoc] at hcut
      exact hcs front back (List.append_inj' hcut rfl).1

/-- **A text stays in a literal, or closes it** with the first quote that is not escaped. -/
theorem held_or_exists_closing (q : Char) (cs : List Char) :
    Held q cs ∨ ∃ inner rest, cs = inner ++ q :: rest ∧ Held q inner ∧ ¬ EndsEscape inner := by
  induction cs using List.reverseRecOn with
  | nil => exact Or.inl held_nil
  | append_singleton cs c ih =>
    rcases ih with hheld | ⟨inner, rest, rfl, hheld, hclosed⟩
    · by_cases hc : c = q → EndsEscape cs
      · exact Or.inl (held_concat_iff.mpr ⟨hheld, hc⟩)
      · obtain ⟨rfl, hclosed⟩ := Classical.not_imp.mp hc
        exact Or.inr ⟨cs, [], rfl, hheld, hclosed⟩
    · exact Or.inr ⟨inner, rest ++ [c], by simp, hheld, hclosed⟩

theorem step_quote (hq : isQuote q = true) : step .outside q = .inside q :=
  if_pos (by simpa [isQuote] using hq)

theorem step_close (hq : isQuote q = true) : step (.inside q) q = .outside := by
  rw [step, if_neg (ne_backslash_of_isQuote hq), if_pos rfl]

/-- Within a literal the pass only knows whether the next character is escaped. -/
theorem after_of_held (h : Held q inner) :
    after (.inside q) inner = if EndsEscape inner then .escaped q else .inside q := by
  induction inner using List.reverseRecOn with
  | nil => rfl
  | append_singleton cs c ih =>
    obtain ⟨hcs, hc⟩ := held_concat_iff.mp h
    rw [after_append, ih hcs, after_cons, after_nil]
    by_cases hesc : EndsEscape cs
    · rw [if_pos hesc, if_neg fun h => ((endsEscape_concat cs c).mp h).2 hesc, step]
    · rw [if_neg hesc, step, if_neg fun hcq => hesc (hc hcq)]
      exact if_congr (by rw [endsEscape_concat, and_iff_left hesc]) rfl rfl

theorem after_ne_outside (h : Held q inner) : after (.inside q) inner ≠ .outside := by
  rw [after_of_held h]
  split <;> simp

theorem after_literal (hq : isQuote q = true) (hheld : Held q inner) (hclosed : ¬ EndsEscape inner)
    (rest : List Char) : after .outside (q :: (inner ++ q :: rest)) = after .outside rest := by
  rw [after_cons, step_quote hq, after_append, after_of_held hheld, if_neg hclosed, after_cons,
    step_close hq]

end Held

/-- **The pass is outside exactly behind a clear text.** -/
theorem after_eq_outside_iff {cs : List Char} : after .outside cs = .outside ↔ Clear cs := by
  constructor
  · intro h
    -- The induction is on the length of the text, as a literal is taken as a whole.
    induction hlen : cs.length using Nat.strong_induction_on generalizing cs with
    | _ n ih =>
      subst hlen
      cases cs with
      | nil => exact .nil
      | cons c r =>
        cases hc : isQuote c with
        | false =>
          rw [after_cons, step_outside hc] at h
          exact .char hc (ih r.length (Nat.lt_succ_self _) h rfl)
        | true =>
          rcases held_or_exists_closing c r with hheld | ⟨inner, rest, rfl, hheld, hclosed⟩
          · rw [after_cons, step_quote hc] at h
            exact absurd h (after_ne_outside hheld)
          · rw [after_literal hc hheld hclosed] at h
            exact .literal hc hheld hclosed (ih rest.length (by simp; omega) h rfl)
  · intro h
    induction h with
    | nil => rfl
    | char hc _ ih => rw [after_cons, step_outside hc, ih]
    | literal hq hheld hclosed _ ih => rw [after_literal hq hheld hclosed, ih]

instance : DecidablePred Clear := fun _ => decidable_of_iff _ after_eq_outside_iff

/-! ### Masks, part by part -/

/-- What the mask shows for a character within a literal. -/
def hide (c : Char) : List Char :=
  List.replicate c.utf8Size 'x'

theorem maskFrom_cons (s : State) (c : Char) (cs : List Char) :
    maskFrom s (c :: cs) =
      (if s = .outside ∨ step s c = .outside then [c] else hide c) ++ maskFrom (step s c) cs := by
  rw [maskFrom]
  split <;> rfl

theorem maskFrom_append (s : State) (cs ds : List Char) :
    maskFrom s (cs ++ ds) = maskFrom s cs ++ maskFrom (after s cs) ds := by
  induction cs generalizing s with
  | nil => rfl
  | cons c cs ih =>
    rw [List.cons_append, maskFrom_cons, maskFrom_cons, ih, List.append_assoc, after_cons]

theorem width8_replicate (n : Nat) : width8 (List.replicate n 'x') = n := by
  induction n with
  | zero => rfl
  | succ n ih => rw [List.replicate_succ, width8_cons, ih, Nat.add_comm]; rfl

theorem width8_hide (c : Char) : width8 (hide c) = c.utf8Size :=
  width8_replicate _

/-- **A mask has the width of its text.** -/
theorem width8_maskFrom (s : State) (cs : List Char) : width8 (maskFrom s cs) = width8 cs := by
  induction cs generalizing s with
  | nil => rfl
  | cons c cs ih =>
    rw [maskFrom_cons, width8_append, ih, width8_cons]
    split
    · rfl
    · rw [width8_hide]

theorem maskFrom_of_outside {cs : List Char} (hcs : ∀ c ∈ cs, isQuote c = false) :
    maskFrom .outside cs = cs := by
  induction cs with
  | nil => rfl
  | cons c cs ih =>
    obtain ⟨hc, hcs⟩ := List.forall_mem_cons.mp hcs
    rw [maskFrom_cons, if_pos (Or.inl rfl), step_outside hc, ih hcs]
    rfl

theorem maskFrom_of_held {q : Char} {inner : List Char} (h : Held q inner) :
    maskFrom (.inside q) inner = inner.flatMap hide := by
  induction inner using List.reverseRecOn with
  | nil => rfl
  | append_singleton cs c ih =>
    have hnext : step (after (.inside q) cs) c ≠ .outside := by
      have hne := after_ne_outside h
      rwa [after_append, after_cons, after_nil] at hne
    rw [maskFrom_append, ih h.of_append, List.flatMap_append, maskFrom_cons,
      if_neg fun h' => h'.elim (after_ne_outside h.of_append) hnext]
    rfl

/-! ### Masks of masks -/

/-- The state without an escape: the mask of a backslash escapes nothing. -/
def State.unescaped : State → State
  | .escaped quote => .inside quote
  | s => s

theorem maskFrom_replicate_append {q : Char} (hq : isQuote q = true) (n : Nat) (cs : List Char) :
    maskFrom (.inside q) (List.replicate n 'x' ++ cs) =
      List.replicate n 'x' ++ maskFrom (.inside q) cs := by
  have hstep : step (.inside q) 'x' = .inside q := by
    rw [step, if_neg (by decide), if_neg]
    rintro rfl
    exact absurd hq (by decide)
  induction n with
  | zero => rfl
  | succ n ih =>
    rw [List.replicate_succ, List.cons_append, maskFrom_cons, hstep, ih, if_neg (by simp)]
    rfl

/-- **A mask is masked already.** -/
theorem maskFrom_maskFrom {s : State} (hs : s.Quoted) (cs : List Char) :
    maskFrom s.unescaped (maskFrom s cs) = maskFrom s cs := by
  induction cs generalizing s with
  | nil => rfl
  | cons c cs ih =>
    have hrest := ih (hs.step c)
    rw [maskFrom_cons]
    by_cases hshown : s = .outside ∨ step s c = .outside
    · -- What is shown is no escape and follows none.
      have hstate : s.unescaped = s ∧ (step s c).unescaped = step s c := by
        cases s with
        | outside =>
          refine ⟨rfl, ?_⟩
          rw [step]
          split <;> rfl
        | inside q =>
          rw [hshown.resolve_left (by simp)]
          exact ⟨rfl, rfl⟩
        | escaped q => exact absurd hshown (by simp [step])
      rw [hstate.2] at hrest
      rw [if_pos hshown, hstate.1, List.singleton_append, maskFrom_cons, if_pos hshown, hrest,
        List.singleton_append]
    · obtain ⟨q, hq, hbefore, hbehind⟩ : ∃ q, isQuote q = true ∧ s.unescaped = .inside q ∧
          (step s c).unescaped = .inside q := by
        rw [not_or] at hshown
        cases s with
        | outside => exact absurd rfl hshown.1
        | inside q =>
          refine ⟨q, hs, rfl, ?_⟩
          have hnext := hshown.2
          rw [step] at hnext ⊢
          split
          · rfl
          · next hslash =>
            rw [if_neg hslash] at hnext
            rw [if_neg fun hc => hnext (if_pos hc)]
            rfl
        | escaped q => exact ⟨q, hs, rfl, rfl⟩
      rw [hbehind] at hrest
      rw [if_neg hshown, hbefore, hide, maskFrom_replicate_append hq, hrest]

/-! ### Splits, part by part -/

theorem splitFrom_cons (sep : Char) (s : State) (c : Char) (cs : List Char) :
    splitFrom sep s (c :: cs) =
      if s = .outside ∧ step s c = .outside ∧ c = sep then [] :: splitFrom sep (step s c) cs
      else (splitFrom sep (step s c) cs).modifyHead ([c] ++ ·) := by
  obtain ⟨part, parts, hparts⟩ := List.exists_cons_of_ne_nil (splitFrom_ne_nil sep (step s c) cs)
  rw [splitFrom]
  split
  · rfl
  · rw [hparts]
    rfl

theorem joinWith_modifyHead (sep u : List Char) {parts : List (List Char)} (h : parts ≠ []) :
    joinWith sep (parts.modifyHead (u ++ ·)) = u ++ joinWith sep parts := by
  obtain ⟨part, parts, rfl⟩ := List.exists_cons_of_ne_nil h
  rw [List.modifyHead_cons, joinWith, joinWith]
  cases parts with
  | nil => rw [List.intercalate_singleton, List.intercalate_singleton]
  | cons next parts =>
    rw [List.intercalate_cons_cons, List.intercalate_cons_cons, List.append_assoc,
      List.append_assoc, List.append_assoc]

/-- **A split loses nothing but the separators that it cuts at.** -/
theorem joinWith_splitFrom (sep : Char) (s : State) (cs : List Char) :
    joinWith [sep] (splitFrom sep s cs) = cs := by
  induction cs generalizing s with
  | nil => rfl
  | cons c cs ih =>
    have hne := splitFrom_ne_nil sep (step s c) cs
    rw [splitFrom_cons]
    split
    · next hcut =>
      rw [joinWith, List.intercalate_cons_of_ne_nil hne, ← joinWith, ih, hcut.2.2]
      rfl
    · rw [joinWith_modifyHead _ _ hne, ih, List.singleton_append]

theorem splitFrom_append_of_uncut {sep : Char} {s : State} {u : List Char}
    (hu : ∀ front back, u = front ++ sep :: back → after s front ≠ .outside) (cs : List Char) :
    splitFrom sep s (u ++ cs) = (splitFrom sep (after s u) cs).modifyHead (u ++ ·) := by
  induction u generalizing s with
  | nil =>
    rw [List.nil_append, after_nil]
    cases splitFrom sep s cs <;> rfl
  | cons c u ih =>
    have hrest := ih (s := step s c) fun front back hcut => hu (c :: front) back (by rw [hcut]; rfl)
    rw [List.cons_append, splitFrom_cons,
      if_neg fun hcut => hu [] u (by rw [hcut.2.2]; rfl) hcut.1, hrest, after_cons]
    cases splitFrom sep (after (step s c) u) cs <;> rfl

theorem map_width8_modifyHead (u : List Char) (parts : List (List Char)) :
    (parts.modifyHead (u ++ ·)).map width8 = (parts.map width8).modifyHead (width8 u + ·) := by
  cases parts with
  | nil => rfl
  | cons part parts =>
    rw [List.modifyHead_cons, List.map_cons, List.map_cons, List.modifyHead_cons, width8_append]

/-- **The parts of a text are as wide as those of its mask**, which is cut at every separator. -/
theorem map_width8_splitFrom {sep : Char} (hx : sep ≠ 'x') (hsep : isQuote sep = false) {s : State}
    (hs : s.Quoted) (cs : List Char) :
    (splitFrom sep s cs).map width8 = (splitAt sep (maskFrom s cs)).map width8 := by
  induction cs generalizing s with
  | nil => rfl
  | cons c cs ih =>
    have hrest := ih (hs.step c)
    rw [splitAt_eq_splitOn] at hrest ⊢
    rw [splitFrom_cons, maskFrom_cons]
    by_cases hc : c = sep ∧ step s c = .outside
    · -- A separator that is read to the outside stands outside, as it closes nothing.
      obtain ⟨rfl, hnext⟩ := hc
      obtain rfl := eq_outside_of_step hs hsep hnext
      rw [if_pos ⟨rfl, hnext, rfl⟩, if_pos (Or.inl rfl), List.singleton_append,
        List.splitOn_cons_eq_if_modifyHead, if_pos (by simp), List.map_cons, List.map_cons, hrest]
    · have hfree : sep ∉ if s = .outside ∨ step s c = .outside then [c] else hide c := by
        split
        · next hshown =>
          rw [List.mem_singleton]
          rintro rfl
          refine hc ⟨rfl, hshown.elim (fun hs => ?_) id⟩
          rw [hs, step_outside hsep]
        · exact fun hmem => hx (List.eq_of_mem_replicate hmem)
      have hwidth : width8 (if s = .outside ∨ step s c = .outside then [c] else hide c) =
          width8 [c] := by
        split
        · rfl
        · exact width8_hide c
      rw [if_neg fun hcut => hc ⟨hcut.2.2, hcut.2.1⟩, Text.splitOn_append_of_not_mem hfree,
        map_width8_modifyHead, map_width8_modifyHead, hrest, hwidth]

/-! ### Both together -/

/-- **Masks and splits agree.**  The parts of a text, joined, are the text.  Its mask has its width,
shows each character outside of literals and each of their quotes at its place and hides all else,
and is its own mask.  A separator that can be told from what a mask shows cuts the mask into parts
of the widths that it cuts the text into. -/
theorem mask_split_agree (cs : List Char) :
    (∀ sep, joinWith [sep] (split sep cs) = cs) ∧
    width8 (mask cs) = width8 cs ∧
    (∀ front c back, cs = front ++ c :: back →
      ∃ before behind, width8 before = width8 front ∧ mask cs = before ++
        ((if Clear front ∨ Clear (front ++ [c]) then [c] else hide c) ++ behind)) ∧
    mask (mask cs) = mask cs ∧
    ∀ sep, sep ≠ 'x' → isQuote sep = false →
      (split sep cs).map width8 = (splitAt sep (mask cs)).map width8 := by
  refine ⟨fun sep => joinWith_splitFrom sep .outside cs, width8_maskFrom .outside cs, ?_,
    maskFrom_maskFrom (s := .outside) trivial cs,
    fun sep hx hsep => map_width8_splitFrom hx hsep (s := .outside) trivial cs⟩
  rintro front c back rfl
  refine ⟨mask front, maskFrom (after .outside (front ++ [c])) back, width8_maskFrom _ _, ?_⟩
  have hstep : step (after .outside front) c = after .outside (front ++ [c]) := by
    rw [after_append, after_cons, after_nil]
  rw [mask, maskFrom_append, maskFrom_cons, hstep]
  simp only [after_eq_outside_iff]
  rfl

/-- A pipe in a literal, one outside, and one in a literal that is never closed. -/
theorem mask_split_agree_unclosed :
    ∃ before behind, width8 before = 3 ∧ mask "\"é|\\\"\"|'x|".toList = before ++ ('x' :: behind) ∧
      '|' ≠ 'x' ∧ isQuote '|' = false ∧
      (split '|' "\"é|\\\"\"|'x|".toList).map width8 = [7, 3] ∧
      (splitAt '|' (mask "\"é|\\\"\"|'x|".toList)).map width8 = [7, 3] := by
  obtain ⟨-, -, hmask, -, hsplit⟩ := mask_split_agree "\"é|\\\"\"|'x|".toList
  obtain ⟨before, behind, hwidth, hshown⟩ := hmask "\"é".toList '|' "\\\"\"|'x|".toList (by decide)
  rw [if_neg (by decide +kernel)] at hshown
  have hparts : (split '|' "\"é|\\\"\"|'x|".toList).map width8 = [7, 3] := by decide +kernel
  have hsame := hsplit '|' (by decide) rfl
  exact ⟨before, behind, hwidth, hshown, by decide, rfl, hparts, hsame.symm.trans hparts⟩

end TwigTemplate.Literal
