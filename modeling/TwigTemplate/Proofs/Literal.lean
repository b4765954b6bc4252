import TwigTemplate.Literal.Mask
import TwigTemplate.Literal.Split
import TwigTemplate.Region.Extent

/-!
# Literals and what stands outside of them

A mask and a split read a text in one pass, and a literal that is open is all that they remember.
So a text behind code without an open literal is read by itself, and without quotes in it there is
nothing to hide.

* `after`: the literal that is open behind a text.
* `exists_of_maskFrom_eq`: **a character that the mask shows stands outside**.
* `filterCalls_append`: **the last filter of an expression is read by itself**.
-/

namespace TwigTemplate.Literal

open Region (isQuote)

/-- The state behind a text. -/
def after (s : State) (cs : List Char) : State :=
  cs.foldl step s

@[simp] theorem after_nil (s : State) : after s [] = s := rfl

@[simp] theorem after_cons (s : State) (c : Char) (cs : List Char) :
    after s (c :: cs) = after (step s c) cs := rfl

theorem after_append (s : State) (cs ds : List Char) :
    after s (cs ++ ds) = after (after s cs) ds :=
  List.foldl_append

theorem step_outside {c : Char} (hc : isQuote c = false) : step .outside c = .outside := by
  rw [isQuote, Bool.or_eq_false_iff, decide_eq_false_iff_not, decide_eq_false_iff_not] at hc
  exact if_neg (not_or.mpr hc)

theorem after_outside {cs : List Char} (hcs : ∀ c ∈ cs, isQuote c = false) :
    after .outside cs = .outside := by
  induction cs with
  | nil => rfl
  | cons c cs ih =>
    obtain ⟨hc, hcs⟩ := List.forall_mem_cons.mp hcs
    rw [after_cons, step_outside hc, ih hcs]

/-- The literal that is open was opened by a quote. -/
def State.Quoted : State → Prop
  | .outside => True
  | .inside quote | .escaped quote => isQuote quote = true

theorem State.Quoted.step {s : State} (hs : s.Quoted) (c : Char) :
    (Literal.step s c).Quoted := by
  cases s with
  | outside =>
    rw [Literal.step]
    split
    · next hquote =>
      show isQuote c = true
      rcases hquote with rfl | rfl <;> rfl
    · trivial
  | inside quote =>
    rw [Literal.step]
    split
    · exact hs
    · split
      · trivial
      · exact hs
  | escaped quote => exact hs

theorem eq_outside_of_step {s : State} (hs : s.Quoted) {c : Char} (hc : isQuote c = false)
    (h : step s c = .outside) : s = .outside := by
  cases s with
  | outside => rfl
  | inside quote =>
    rw [step] at h
    split at h
    · exact absurd h (by simp)
    · split at h
      · next heq => exact absurd (hc.symm.trans (heq ▸ hs)) (by simp)
      · exact absurd h (by simp)
  | escaped quote => exact absurd h (by simp [step])

/-! ### Masks -/

theorem eq_of_maskFrom_outside {cs ds : List Char} (hds : ∀ c ∈ ds, isQuote c = false)
    (h : maskFrom .outside cs = ds) : cs = ds := by
  induction cs generalizing ds with
  | nil => exact h
  | cons c cs ih =>
    rw [maskFrom, if_pos (Or.inl rfl)] at h
    subst h
    obtain ⟨hc, hds⟩ := List.forall_mem_cons.mp hds
    rw [step_outside hc] at hds ⊢
    rw [← ih hds rfl]

/-- **A character that the mask shows stands outside**, when it is no quote and no letter of the
mask. -/
theorem exists_of_maskFrom_eq {c : Char} (hx : c ≠ 'x') (hc : isQuote c = false) {s : State}
    (hs : s.Quoted) {cs u v : List Char} (h : maskFrom s cs = u ++ c :: v) :
    ∃ p q, cs = p ++ c :: q ∧ after s p = .outside ∧ maskFrom .outside q = v := by
  induction cs generalizing s u with
  | nil => exact absurd h (by simp [maskFrom])
  | cons d cs ih =>
    rw [maskFrom] at h
    split at h
    · next hshown =>
      cases u with
      | nil =>
        obtain ⟨rfl, hrest⟩ := List.cons.inj h
        obtain rfl := hshown.elim id (eq_outside_of_step hs hc)
        exact ⟨[], cs, rfl, rfl, by rwa [step_outside hc] at hrest⟩
      | cons e u =>
        obtain ⟨p, q, rfl, hp, hq⟩ := ih (hs.step d) (List.cons.inj h).2
        exact ⟨d :: p, q, rfl, hp, hq⟩
    · -- The mask stands for `d`, so the character is shown behind it.
      obtain ⟨u', hrest⟩ : ∃ u', maskFrom (step s d) cs = u' ++ c :: v := by
        rcases List.append_eq_append_iff.mp h with ⟨u', -, hrest⟩ | ⟨x, hmask, hrest⟩
        · exact ⟨u', hrest⟩
        · cases x with
          | nil => exact ⟨[], hrest.symm⟩
          | cons e x =>
            obtain rfl := (List.cons.inj hrest).1
            have hmem : c ∈ List.replicate d.utf8Size 'x' := by
              rw [hmask]
              exact List.mem_append_right _ List.mem_cons_self
            exact absurd (List.eq_of_mem_replicate hmem) hx
      obtain ⟨p, q, rfl, hp, hq⟩ := ih (hs.step d) hrest
      exact ⟨d :: p, q, rfl, hp, hq⟩

/-! ### Splits -/

theorem splitFrom_ne_nil (sep : Char) (s : State) (cs : List Char) : splitFrom sep s cs ≠ [] := by
  cases cs with
  | nil => exact List.cons_ne_nil _ _
  | cons c cs =>
    rw [splitFrom]
    split
    · exact List.cons_ne_nil _ _
    · split <;> exact List.cons_ne_nil _ _

/-- A text is split at a separator that stands outside. -/
theorem splitFrom_append {sep : Char} (hsep : isQuote sep = false) {s : State} {p : List Char}
    (hp : after s p = .outside) (q : List Char) :
    splitFrom sep s (p ++ sep :: q) = splitFrom sep s p ++ splitFrom sep .outside q := by
  induction p generalizing s with
  | nil =>
    obtain rfl : s = .outside := hp
    show splitFrom sep .outside (sep :: q) = [] :: splitFrom sep .outside q
    rw [splitFrom, if_pos ⟨rfl, step_outside hsep, rfl⟩, step_outside hsep]
  | cons c p ih =>
    rw [List.cons_append, splitFrom, splitFrom, ih hp]
    split
    · rfl
    · obtain ⟨part, parts, hparts⟩ := List.exists_cons_of_ne_nil (splitFrom_ne_nil sep (step s c) p)
      rw [hparts]
      rfl

theorem splitFrom_of_not_mem {sep : Char} {cs : List Char} (hcs : ∀ c ∈ cs, isQuote c = false)
    (hsep : sep ∉ cs) : splitFrom sep .outside cs = [cs] := by
  induction cs with
  | nil => rfl
  | cons c cs ih =>
    obtain ⟨hc, hcs⟩ := List.forall_mem_cons.mp hcs
    rw [List.mem_cons, not_or] at hsep
    rw [splitFrom, if_neg fun h => hsep.1 h.2.2.symm, step_outside hc, ih hcs hsep.2]

/-- **The last filter of an expression is read by itself.** -/
theorem filterCalls_append {p q : List Char} (hp : after .outside p = .outside)
    (hq : ∀ c ∈ q, isQuote c = false) (hpipe : '|' ∉ q) :
    filterCalls (p ++ '|' :: q) = filterCalls p ++ [FilterCall.ofPart q] := by
  obtain ⟨part, parts, hparts⟩ := List.exists_cons_of_ne_nil (splitFrom_ne_nil '|' .outside p)
  rw [filterCalls, filterCalls, split, split, splitFrom_append rfl hp,
    splitFrom_of_not_mem hq hpipe, hparts, List.cons_append, List.drop_succ_cons, List.drop_zero,
    List.drop_succ_cons, List.drop_zero, List.map_append]
  rfl

end TwigTemplate.Literal
