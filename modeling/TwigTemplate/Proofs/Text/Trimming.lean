import Mathlib.Data.List.DropRight
import Mathlib.Data.List.TakeWhile
import TwigTemplate.Text.Blank

/-!
# Trimming, over any alphabet

Trimming does not care what the characters are.  This file states it for lists
over any alphabet with a set of blanks, so that documents whose regions are taken
out can be trimmed like texts.

* `trimBy`: a list without the blanks at either end; `Text.trim` is an instance.
* `exists_eq_append_trimBy`: trimming takes blanks off the ends and nothing else.
* `trimBy_flatMap`: trimming commutes with writing out.
-/

namespace TwigTemplate.Text

variable {α β : Type}

/-! ### Trimming -/

/-- The list without the elements with `p` at either end. -/
def trimBy (p : α → Bool) (xs : List α) : List α :=
  (xs.dropWhile p).rdropWhile p

theorem trim_eq_trimBy (cs : List Char) : trim cs = trimBy isBlank cs := rfl

theorem trimEnd_eq_rdropWhile (cs : List Char) : trimEnd cs = cs.rdropWhile isBlank := rfl

theorem rdropWhile_append_of_all {p : α → Bool} (xs : List α) {w : List α}
    (hw : ∀ x ∈ w, p x = true) : (xs ++ w).rdropWhile p = xs.rdropWhile p := by
  rw [List.rdropWhile, List.reverse_append, List.dropWhile_append_of_pos (by simpa using hw)]
  rfl

theorem exists_eq_rdropWhile_append (p : α → Bool) (xs : List α) :
    ∃ w, xs = xs.rdropWhile p ++ w ∧ ∀ x ∈ w, p x = true :=
  ⟨xs.rtakeWhile p, (List.rdropWhile_append_rtakeWhile ..).symm,
    fun _ hx => List.mem_rtakeWhile_imp hx⟩

theorem rdropWhile_map {p : α → Bool} {q : β → Bool} {g : α → β} {xs : List α}
    (h : ∀ x ∈ xs, q (g x) = p x) : (xs.map g).rdropWhile q = (xs.rdropWhile p).map g := by
  induction xs using List.reverseRecOn with
  | nil => rfl
  | append_singleton xs x ih =>
    rw [List.map_append, List.map_cons, List.map_nil, List.rdropWhile_concat,
      List.rdropWhile_concat, h x (by simp), ih fun y hy => h y (List.mem_append_left _ hy)]
    split
    · rfl
    · rw [List.map_append, List.map_cons, List.map_nil]

/-- Trimming takes blanks off and nothing else. -/
theorem exists_eq_append_trimBy (p : α → Bool) (xs : List α) :
    ∃ u v, xs = u ++ (trimBy p xs ++ v) ∧ (∀ x ∈ u, p x = true) ∧ ∀ x ∈ v, p x = true := by
  obtain ⟨v, hv, hall⟩ := exists_eq_rdropWhile_append p (xs.dropWhile p)
  refine ⟨xs.takeWhile p, v, ?_, fun x hx => List.mem_takeWhile_imp hx, hall⟩
  rw [trimBy, ← hv, List.takeWhile_append_dropWhile]

theorem trimBy_append_left {p : α → Bool} {w : List α} (hw : ∀ x ∈ w, p x = true) (xs : List α) :
    trimBy p (w ++ xs) = trimBy p xs := by
  rw [trimBy, List.dropWhile_append_of_pos hw, trimBy]

theorem dropWhile_blank_append {p : α → Bool} {v : List α} (hv : ∀ z ∈ v, p z = true) {x : α}
    (hx : p x = false) (ys : List α) : (v ++ x :: ys).dropWhile p = x :: ys := by
  rw [List.dropWhile_append_of_pos hv, List.dropWhile_cons_of_neg (by simp [hx])]

theorem dropWhile_append_of_ink {p : α → Bool} {xs : List α} (h : ∃ x ∈ xs, p x = false)
    (ys : List α) : (xs ++ ys).dropWhile p = xs.dropWhile p ++ ys := by
  obtain ⟨x, hx, hink⟩ := h
  have hne : xs.dropWhile p ≠ [] := by
    intro he
    rw [List.dropWhile_eq_nil_iff.mp he x hx] at hink
    exact absurd hink (by simp)
  rw [List.dropWhile_append, if_neg (by simpa using hne)]

theorem rdropWhile_append_of_ink {p : α → Bool} {xs : List α} (h : ∃ x ∈ xs, p x = false)
    (ys : List α) : (ys ++ xs).rdropWhile p = ys ++ xs.rdropWhile p := by
  have hrev : ∃ x ∈ xs.reverse, p x = false := by simpa using h
  rw [List.rdropWhile, List.reverse_append, dropWhile_append_of_ink hrev, List.reverse_append,
    List.reverse_reverse, List.rdropWhile]

theorem rdropWhile_cons_of_ink {p : α → Bool} {x : α} (hx : p x = false) (xs : List α) :
    (x :: xs).rdropWhile p = x :: xs.rdropWhile p := by
  by_cases hxs : ∀ y ∈ xs, p y = true
  · have hone : ([x] ++ xs).rdropWhile p = [x].rdropWhile p := rdropWhile_append_of_all [x] hxs
    have hnone : ([] ++ xs).rdropWhile p = [].rdropWhile p := rdropWhile_append_of_all [] hxs
    rw [List.nil_append, List.rdropWhile_nil] at hnone
    rw [List.singleton_append] at hone
    rw [hone, hnone, List.rdropWhile_singleton, if_neg (by simp [hx])]
  · have hink : ∃ y ∈ xs, p y = false := by simpa using hxs
    exact rdropWhile_append_of_ink hink [x]

theorem trimBy_append_ink {p : α → Bool} {x : α} (hx : p x = false) (xs ys : List α) :
    trimBy p (xs ++ x :: ys) = xs.dropWhile p ++ x :: ys.rdropWhile p := by
  have hfront : (xs ++ [x]).dropWhile p = xs.dropWhile p ++ [x] := by
    by_cases hxs : ∀ y ∈ xs, p y = true
    · rw [dropWhile_blank_append hxs hx, List.dropWhile_eq_nil_iff.mpr hxs]
      rfl
    · have hink : ∃ y ∈ xs, p y = false := by simpa using hxs
      exact dropWhile_append_of_ink hink [x]
  have hcut : xs ++ x :: ys = (xs ++ [x]) ++ ys := by simp
  rw [trimBy, hcut, dropWhile_append_of_ink ⟨x, by simp, hx⟩, hfront, List.append_assoc,
    List.singleton_append, rdropWhile_append_of_ink ⟨x, by simp, hx⟩, rdropWhile_cons_of_ink hx]

theorem trimBy_eq_nil_iff {p : α → Bool} {xs : List α} :
    trimBy p xs = [] ↔ ∀ x ∈ xs, p x = true := by
  constructor
  · intro h
    obtain ⟨u, v, hxs, hu, hv⟩ := exists_eq_append_trimBy p xs
    rw [h, List.nil_append] at hxs
    intro x hx
    rw [hxs] at hx
    exact (List.mem_append.mp hx).elim (hu x) (hv x)
  · intro h
    rw [trimBy, List.dropWhile_eq_nil_iff.mpr h]
    rfl

theorem trimBy_append_right {p : α → Bool} (xs : List α) {w : List α} (hw : ∀ x ∈ w, p x = true) :
    trimBy p (xs ++ w) = trimBy p xs := by
  by_cases hxs : ∀ x ∈ xs, p x = true
  · rw [trimBy_eq_nil_iff.mpr hxs, trimBy_eq_nil_iff]
    intro x hx
    exact (List.mem_append.mp hx).elim (hxs x) (hw x)
  · have hne : xs.dropWhile p ≠ [] := fun he => hxs (List.dropWhile_eq_nil_iff.mp he)
    rw [trimBy, List.dropWhile_append, if_neg (by simpa using hne), rdropWhile_append_of_all _ hw,
      trimBy]

theorem trimBy_eq_self {p : α → Bool} {xs : List α} (hhead : ∀ x ∈ xs.head?, p x = false)
    (hlast : ∀ x ∈ xs.getLast?, p x = false) : trimBy p xs = xs := by
  cases xs with
  | nil => rfl
  | cons x xs =>
    have hx : p x = false := hhead x rfl
    rw [trimBy, List.dropWhile_cons_of_neg (by simp [hx]), List.rdropWhile_eq_self_iff]
    intro hne
    simpa using hlast _ (List.getLast?_eq_some_getLast hne)

theorem not_of_head?_dropWhile {p : α → Bool} {xs : List α} :
    ∀ x ∈ (xs.dropWhile p).head?, p x = false := by
  intro x hx
  have hnot := List.head?_dropWhile_not p xs
  rwa [Option.mem_def.mp hx] at hnot

theorem head?_trimBy {p : α → Bool} {xs : List α} : ∀ x ∈ (trimBy p xs).head?, p x = false := by
  intro x hx
  have hhead : x ∈ (xs.dropWhile p).head? := by
    obtain ⟨rest, hrest⟩ := List.rdropWhile_prefix p (l := xs.dropWhile p)
    have hfront : (xs.dropWhile p).rdropWhile p = trimBy p xs := rfl
    rw [← hrest, hfront, List.head?_append, Option.mem_def.mp hx]
    rfl
  exact not_of_head?_dropWhile x hhead

theorem getLast?_trimBy {p : α → Bool} {xs : List α} :
    ∀ x ∈ (trimBy p xs).getLast?, p x = false := by
  intro x hx
  have hne : trimBy p xs ≠ [] := by
    intro he
    rw [he] at hx
    exact absurd hx (by simp)
  have hlast := List.rdropWhile_last_not p (xs.dropWhile p) hne
  rw [List.getLast?_eq_some_getLast hne] at hx
  obtain rfl := Option.some.inj hx
  simpa [trimBy] using hlast

theorem trimBy_trimBy (p : α → Bool) (xs : List α) : trimBy p (trimBy p xs) = trimBy p xs :=
  trimBy_eq_self head?_trimBy getLast?_trimBy

theorem mem_of_mem_trimBy {p : α → Bool} {xs : List α} {x : α} (h : x ∈ trimBy p xs) : x ∈ xs := by
  obtain ⟨u, v, hxs, -⟩ := exists_eq_append_trimBy p xs
  rw [hxs]
  exact List.mem_append_right _ (List.mem_append_left _ h)

theorem filter_eq_nil_of_all {p : α → Bool} {w : List α} (hw : ∀ x ∈ w, p x = true) :
    w.filter (!p ·) = [] :=
  List.filter_eq_nil_iff.mpr fun x hx => by simp [hw x hx]

/-- The text without its blanks. -/
def solid (cs : List Char) : List Char :=
  cs.filter (!isBlank ·)

theorem solid_append (cs ds : List Char) : solid (cs ++ ds) = solid cs ++ solid ds := by
  rw [solid, List.filter_append, ← solid, ← solid]

theorem filter_trimBy (p : α → Bool) (xs : List α) :
    (trimBy p xs).filter (!p ·) = xs.filter (!p ·) := by
  obtain ⟨u, v, hxs, hu, hv⟩ := exists_eq_append_trimBy p xs
  conv_rhs => rw [hxs]
  rw [List.filter_append, List.filter_append, filter_eq_nil_of_all hu, filter_eq_nil_of_all hv]
  simp

theorem infix_of_infix_append_left {p : α → Bool} {w u xs : List α} (hne : w ≠ [])
    (hw : ∀ x ∈ w, p x = false) (hu : ∀ x ∈ u, p x = true) (h : w <:+: u ++ xs) : w <:+: xs := by
  induction u with
  | nil => exact h
  | cons y u ih =>
    rcases List.infix_cons_iff.mp h with hpre | hin
    · obtain ⟨x, w', rfl⟩ := List.exists_cons_of_ne_nil hne
      obtain ⟨rfl, -⟩ := List.cons_prefix_cons.mp hpre
      have := hw x List.mem_cons_self
      rw [hu x List.mem_cons_self] at this
      exact absurd this (by simp)
    · exact ih (fun x hx => hu x (List.mem_cons_of_mem _ hx)) hin

theorem infix_append_cons {x : α} {w xs ys : List α} (hx : x ∉ w) (h : w <:+: xs ++ x :: ys) :
    w <:+: xs ∨ w <:+: ys := by
  obtain ⟨u, v, hcut⟩ := h
  rcases List.append_eq_append_iff.mp hcut with ⟨r, hxs, -⟩ | ⟨r, hfront, hback⟩
  · exact Or.inl ⟨u, r, hxs.symm⟩
  · cases r with
    | nil =>
      rw [List.append_nil] at hfront
      exact Or.inl ⟨u, [], by rw [List.append_nil, hfront]⟩
    | cons y r =>
      obtain ⟨rfl, rfl⟩ := List.cons.inj hback
      rcases List.append_eq_append_iff.mp hfront with ⟨s, -, hw⟩ | ⟨s, -, hw⟩
      · rw [hw] at hx
        exact absurd (List.mem_append_right s List.mem_cons_self) hx
      · cases s with
        | nil =>
          rw [List.nil_append] at hw
          rw [← hw] at hx
          exact absurd List.mem_cons_self hx
        | cons z s =>
          obtain ⟨-, rfl⟩ := List.cons.inj hw
          exact Or.inr ⟨s, v, rfl⟩

theorem infix_trimBy {p : α → Bool} {w xs : List α} (hne : w ≠ []) (hw : ∀ x ∈ w, p x = false)
    (h : w <:+: xs) : w <:+: trimBy p xs := by
  obtain ⟨u, v, hxs, hu, hv⟩ := exists_eq_append_trimBy p xs
  rw [hxs] at h
  have hback := infix_of_infix_append_left hne hw hu h
  rw [← List.reverse_infix, List.reverse_append] at hback
  rw [← List.reverse_infix]
  exact infix_of_infix_append_left (p := p) (by simpa using hne) (by simpa using hw)
    (by simpa using hv) hback

/-- Trimming and writing out can be exchanged when blanks are written as blanks
and all else begins and ends with ink. -/
theorem trimBy_flatMap {p : α → Bool} {q : β → Bool} {g : α → List β} {xs : List α}
    (hblank : ∀ a ∈ xs, p a = true → ∀ b ∈ g a, q b = true)
    (hink : ∀ a ∈ xs, p a = false → g a ≠ [] ∧ (∀ b ∈ (g a).head?, q b = false) ∧
      ∀ b ∈ (g a).getLast?, q b = false) :
    trimBy q (xs.flatMap g) = (trimBy p xs).flatMap g := by
  obtain ⟨u, v, hxs, hu, hv⟩ := exists_eq_append_trimBy p xs
  have hall : ∀ w : List α, (∀ x ∈ w, x ∈ xs ∧ p x = true) → ∀ b ∈ w.flatMap g, q b = true := by
    intro w hw b hb
    obtain ⟨a, ha, hba⟩ := List.mem_flatMap.mp hb
    exact hblank a (hw a ha).1 (hw a ha).2 b hba
  have hu' : ∀ b ∈ u.flatMap g, q b = true := hall u fun x hx =>
    ⟨hxs ▸ List.mem_append_left _ hx, hu x hx⟩
  have hv' : ∀ b ∈ v.flatMap g, q b = true := hall v fun x hx =>
    ⟨hxs ▸ List.mem_append_right _ (List.mem_append_right _ hx), hv x hx⟩
  conv_lhs => rw [hxs]
  rw [List.flatMap_append, List.flatMap_append, trimBy_append_left hu', trimBy_append_right _ hv']
  apply trimBy_eq_self
  · intro b hb
    cases htrim : trimBy p xs with
    | nil => rw [htrim] at hb; exact absurd hb (by simp)
    | cons a rest =>
      rw [htrim, List.flatMap_cons] at hb
      have hmem : a ∈ xs := mem_of_mem_trimBy (p := p) (by rw [htrim]; exact List.mem_cons_self)
      have ha : p a = false := @head?_trimBy _ p xs a (by rw [htrim]; rfl)
      rw [List.head?_append_of_ne_nil _ (hink a hmem ha).1] at hb
      exact (hink a hmem ha).2.1 b hb
  · intro b hb
    cases htrim : (trimBy p xs).eq_nil_or_concat with
    | inl hnil => rw [hnil] at hb; exact absurd hb (by simp)
    | inr hconcat =>
      obtain ⟨front, a, hcat⟩ := hconcat
      have hmem : a ∈ xs := mem_of_mem_trimBy (p := p) (by rw [hcat]; simp)
      have ha : p a = false := @getLast?_trimBy _ p xs a (by rw [hcat]; simp)
      rw [hcat, List.concat_eq_append, List.flatMap_append, List.flatMap_cons, List.flatMap_nil,
        List.append_nil, List.getLast?_append_of_ne_nil _ (hink a hmem ha).1] at hb
      exact (hink a hmem ha).2.2 b hb

theorem trimBy_map {p : α → Bool} {q : β → Bool} {g : α → β} (h : ∀ a, q (g a) = p a)
    (xs : List α) : trimBy q (xs.map g) = (trimBy p xs).map g := by
  have hcomp : q ∘ g = p := funext h
  rw [trimBy, List.dropWhile_map, hcomp, rdropWhile_map fun a _ => h a, trimBy]

end TwigTemplate.Text
