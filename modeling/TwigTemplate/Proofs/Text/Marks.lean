import TwigTemplate.Proofs.Text.Ink
import TwigTemplate.Proofs.Text.Respacing

/-!
# The marks of a text

Reading a text from left to right one comes upon its ink, letter by letter, and
before each letter upon a run of blanks: one within the line, or one that leads to
a new line.  These pairs are the **marks** of the text.  They say less than the
text, and as much as its ink.

* `marks`: the letters that are not blank, each with what leads up to it.
* `marks_eq_of_ink`: **texts with the same ink have the same marks**.
* `lead_eq_of_marks`: between the same two letters stand the same blanks, or a
  newline in both texts.
* `respaced_of_marks`: texts with the same marks are respaced.
-/

namespace TwigTemplate.Text

variable {α : Type} [BEq α] {p : α → Bool} {nl : α}

/-- What leads up to a letter: blanks within the line, or a new line. -/
def lead (nl : α) (u : List α) : Option (List α) :=
  if u.contains nl then none else some u

/-- The marks of a list that follows the blanks `u`. -/
def marksFrom (p : α → Bool) (nl : α) (u : List α) : List α → List (Option (List α) × α)
  | [] => []
  | x :: xs => if p x then marksFrom p nl (u ++ [x]) xs else (lead nl u, x) :: marksFrom p nl [] xs

/-- The marks of a list at the start of a line. -/
def marks (p : α → Bool) (nl : α) (xs : List α) : List (Option (List α) × α) :=
  marksFrom p nl [nl] xs

/-! ### Marks of parts -/

theorem marksFrom_cons_of_blank {x : α} (hx : p x = true) (u xs : List α) :
    marksFrom p nl u (x :: xs) = marksFrom p nl (u ++ [x]) xs := by
  rw [marksFrom, if_pos hx]

theorem marksFrom_cons_of_ink {x : α} (hx : p x = false) (u xs : List α) :
    marksFrom p nl u (x :: xs) = (lead nl u, x) :: marksFrom p nl [] xs := by
  rw [marksFrom, if_neg (by rw [hx]; simp)]

theorem marksFrom_blank_append {v : List α} (hv : ∀ x ∈ v, p x = true) (u xs : List α) :
    marksFrom p nl u (v ++ xs) = marksFrom p nl (u ++ v) xs := by
  induction v generalizing u with
  | nil => rw [List.nil_append, List.append_nil]
  | cons x v ih =>
    rw [List.cons_append, marksFrom_cons_of_blank (hv x List.mem_cons_self),
      ih fun y hy => hv y (List.mem_cons_of_mem _ hy), List.append_assoc, List.singleton_append]

theorem marksFrom_append_blank {v : List α} (hv : ∀ x ∈ v, p x = true) (u xs : List α) :
    marksFrom p nl u (xs ++ v) = marksFrom p nl u xs := by
  induction xs generalizing u with
  | nil =>
    have h : marksFrom p nl u (v ++ []) = marksFrom p nl (u ++ v) [] :=
      marksFrom_blank_append hv u []
    rw [List.append_nil] at h
    rw [List.nil_append, h]
    rfl
  | cons x xs ih =>
    rw [List.cons_append]
    by_cases hx : p x = true
    · rw [marksFrom_cons_of_blank hx, marksFrom_cons_of_blank hx, ih]
    · rw [Bool.not_eq_true] at hx
      rw [marksFrom_cons_of_ink hx, marksFrom_cons_of_ink hx, ih]

theorem marksFrom_append {xs : List α} (hne : xs ≠ []) (hlast : ∀ x ∈ xs.getLast?, p x = false)
    (u ys : List α) :
    marksFrom p nl u (xs ++ ys) = marksFrom p nl u xs ++ marksFrom p nl [] ys := by
  induction xs generalizing u with
  | nil => exact absurd rfl hne
  | cons x xs ih =>
    rw [List.cons_append]
    by_cases hxs : xs = []
    · subst hxs
      have hx : p x = false := hlast x rfl
      rw [List.nil_append, marksFrom_cons_of_ink hx, marksFrom_cons_of_ink hx]
      rfl
    · have hlast' : ∀ y ∈ xs.getLast?, p y = false := by
        intro y hy
        apply hlast
        rw [List.getLast?_cons_of_ne_nil hxs]
        exact hy
      by_cases hx : p x = true
      · rw [marksFrom_cons_of_blank hx, marksFrom_cons_of_blank hx, ih hxs hlast']
      · rw [Bool.not_eq_true] at hx
        rw [marksFrom_cons_of_ink hx, marksFrom_cons_of_ink hx, ih hxs hlast', List.cons_append]

theorem map_snd_marksFrom (u xs : List α) :
    (marksFrom p nl u xs).map Prod.snd = xs.filter (!p ·) := by
  induction xs generalizing u with
  | nil => rfl
  | cons x xs ih =>
    by_cases hx : p x = true
    · rw [marksFrom_cons_of_blank hx, ih, List.filter_cons_of_neg (by simp [hx])]
    · rw [Bool.not_eq_true] at hx
      rw [marksFrom_cons_of_ink hx, List.map_cons, ih, List.filter_cons_of_pos (by simp [hx])]

theorem marksFrom_eq_nil {u xs : List α} (h : marksFrom p nl u xs = []) :
    ∀ x ∈ xs, p x = true := by
  have hfilter : (marksFrom p nl u xs).map Prod.snd = xs.filter (!p ·) := map_snd_marksFrom u xs
  rw [h, List.map_nil, eq_comm, List.filter_eq_nil_iff] at hfilter
  intro x hx
  have hone := hfilter x hx
  simpa using hone

theorem marksFrom_eq_cons {u xs : List α} {k : Option (List α)} {x : α}
    {ms : List (Option (List α) × α)} (h : marksFrom p nl u xs = (k, x) :: ms) :
    ∃ v ys, xs = v ++ x :: ys ∧ (∀ z ∈ v, p z = true) ∧ p x = false ∧ k = lead nl (u ++ v) ∧
      marksFrom p nl [] ys = ms := by
  induction xs generalizing u with
  | nil => exact absurd h (by simp [marksFrom])
  | cons y xs ih =>
    by_cases hy : p y = true
    · rw [marksFrom_cons_of_blank hy] at h
      obtain ⟨v, ys, rfl, hv, hx, hk, hms⟩ := ih h
      refine ⟨y :: v, ys, rfl, ?_, hx, ?_, hms⟩
      · intro z hz
        rcases List.mem_cons.mp hz with rfl | hz
        · exact hy
        · exact hv z hz
      · rw [hk, List.append_assoc, List.singleton_append]
    · rw [Bool.not_eq_true] at hy
      rw [marksFrom_cons_of_ink hy] at h
      obtain ⟨hhead, hms⟩ := List.cons.inj h
      obtain ⟨rfl, rfl⟩ := Prod.mk.inj hhead
      exact ⟨[], xs, rfl, by simp, hy, by rw [List.append_nil], hms⟩

/-- **Between the same two letters the same blanks stand, or a newline in both
texts.** -/
theorem lead_eq_of_marks {a b u v : List α} {x y : α} {xs ys : List α}
    (h : marks p nl (a ++ (u ++ x :: xs)) = marks p nl (b ++ (v ++ y :: ys)))
    (hsolid : a.filter (!p ·) = b.filter (!p ·))
    (hane : a ≠ []) (hbne : b ≠ [])
    (ha : ∀ z ∈ a.getLast?, p z = false) (hb : ∀ z ∈ b.getLast?, p z = false)
    (hu : ∀ z ∈ u, p z = true) (hv : ∀ z ∈ v, p z = true) (hx : p x = false) (hy : p y = false) :
    lead nl u = lead nl v := by
  have hcount : ∀ w : List α, (marksFrom p nl [nl] w).length = (w.filter (!p ·)).length := by
    intro w
    rw [← map_snd_marksFrom [nl] w, List.length_map]
  have hlen : (marksFrom p nl [nl] a).length = (marksFrom p nl [nl] b).length := by
    rw [hcount, hcount, hsolid]
  rw [marks, marks, marksFrom_append hane ha, marksFrom_append hbne hb] at h
  obtain ⟨-, hrest⟩ := List.append_inj h hlen
  rw [marksFrom_blank_append hu, marksFrom_blank_append hv, marksFrom_cons_of_ink hx,
    marksFrom_cons_of_ink hy] at hrest
  have hhead := (List.cons.inj hrest).1
  exact (Prod.mk.inj hhead).1

/-! ### Runs of blanks -/

variable [LawfulBEq α]

theorem lead_eq_none {u : List α} : lead nl u = none ↔ nl ∈ u := by
  rw [lead]
  split
  · next h => exact ⟨fun _ => List.contains_iff_mem.mp h, fun _ => rfl⟩
  · next h =>
    exact ⟨fun he => absurd he (by simp), fun hmem => absurd (List.contains_iff_mem.mpr hmem) h⟩

theorem lead_of_not_mem {u : List α} (h : nl ∉ u) : lead nl u = some u := by
  rw [lead, if_neg fun hc => h (List.contains_iff_mem.mp hc)]

/-- Runs that lead up alike are equal, or hold a newline both. -/
theorem lead_eq_iff {u v : List α} :
    lead nl u = lead nl v ↔ u = v ∨ nl ∈ u ∧ nl ∈ v := by
  constructor
  · intro h
    by_cases hu : nl ∈ u
    · rw [lead_eq_none.mpr hu, eq_comm, lead_eq_none] at h
      exact Or.inr ⟨hu, h⟩
    · rw [lead_of_not_mem hu] at h
      have hv : nl ∉ v := by
        intro hv
        rw [lead_eq_none.mpr hv] at h
        exact absurd h (by simp)
      rw [lead_of_not_mem hv] at h
      exact Or.inl (Option.some.inj h)
  · rintro (rfl | ⟨hu, hv⟩)
    · rfl
    · rw [lead_eq_none.mpr hu, lead_eq_none.mpr hv]

theorem lead_append_eq {u v : List α} (h : lead nl u = lead nl v) (w : List α) :
    lead nl (u ++ w) = lead nl (v ++ w) := by
  rcases lead_eq_iff.mp h with rfl | ⟨hu, hv⟩
  · rfl
  · exact lead_eq_iff.mpr
      (Or.inr ⟨List.mem_append_left _ hu, List.mem_append_left _ hv⟩)

theorem marksFrom_congr {u v : List α} (h : lead nl u = lead nl v) (xs : List α) :
    marksFrom p nl u xs = marksFrom p nl v xs := by
  induction xs generalizing u v with
  | nil => rfl
  | cons x xs ih =>
    by_cases hx : p x = true
    · rw [marksFrom_cons_of_blank hx, marksFrom_cons_of_blank hx, ih (lead_append_eq h [x])]
    · rw [Bool.not_eq_true] at hx
      rw [marksFrom_cons_of_ink hx, marksFrom_cons_of_ink hx, h]

/-! ### Marks and ink -/

theorem marks_trimBy (xs : List α) : marks p nl (trimBy p xs) = marks p nl xs := by
  obtain ⟨u, v, hcut, hu, hv⟩ := exists_eq_append_trimBy p xs
  have hlead : lead nl ([nl] ++ u) = lead nl [nl] := by
    rw [lead_eq_none.mpr (by simp), lead_eq_none.mpr (by simp)]
  conv_rhs => rw [hcut]
  rw [marks, marks, marksFrom_blank_append hu, marksFrom_congr hlead, marksFrom_append_blank hv]

theorem marksFrom_newline (hnl : p nl = true) (u xs ys : List α) :
    marksFrom p nl u (xs ++ nl :: ys) = marksFrom p nl u xs ++ marks p nl ys := by
  induction xs generalizing u with
  | nil =>
    have hlead : lead nl (u ++ [nl]) = lead nl [nl] := by
      rw [lead_eq_none.mpr (by simp), lead_eq_none.mpr (by simp)]
    rw [List.nil_append, marksFrom_cons_of_blank hnl, marksFrom_congr hlead]
    rfl
  | cons x xs ih =>
    rw [List.cons_append]
    by_cases hx : p x = true
    · rw [marksFrom_cons_of_blank hx, marksFrom_cons_of_blank hx, ih]
    · rw [Bool.not_eq_true] at hx
      rw [marksFrom_cons_of_ink hx, marksFrom_cons_of_ink hx, ih, List.cons_append]

theorem marks_intercalate (hnl : p nl = true) (ls : List (List α)) :
    marks p nl ([nl].intercalate ls) = ls.flatMap (marks p nl) := by
  induction ls with
  | nil => rfl
  | cons l ls ih =>
    by_cases hls : ls = []
    · rw [hls, List.intercalate_singleton, List.flatMap_cons, List.flatMap_nil, List.append_nil]
    · rw [List.intercalate_cons_of_ne_nil hls, List.append_assoc, List.singleton_append, marks,
        marksFrom_newline hnl, ih, List.flatMap_cons]
      rfl

theorem marks_eq_flatMap_ink (hnl : p nl = true) (xs : List α) :
    marks p nl xs = (inkBy p nl xs).flatMap (marks p nl) := by
  have key : ∀ ls : List (List α), ls.flatMap (marks p nl) = (inkOf p ls).flatMap (marks p nl) := by
    intro ls
    induction ls with
    | nil => rfl
    | cons l ls ih =>
      by_cases hl : ∀ x ∈ l, p x = true
      · have hnone : marks p nl l = [] := by
          rw [← marks_trimBy, trimBy_eq_nil_iff.mpr hl]
          rfl
        rw [List.flatMap_cons, hnone, List.nil_append, ih, inkOf_cons_of_blank hl]
      · have hne : trimBy p l ≠ [] := fun he => hl (trimBy_eq_nil_iff.mp he)
        rw [List.flatMap_cons, ih, inkOf_cons_of_ink hne, List.flatMap_cons, marks_trimBy]
  conv_lhs => rw [← @List.intercalate_splitOn _ xs _ _ nl]
  rw [marks_intercalate hnl, key]
  rfl

/-- **Texts with the same ink have the same marks.** -/
theorem marks_eq_of_ink (hnl : p nl = true) {xs ys : List α} (h : inkBy p nl xs = inkBy p nl ys) :
    marks p nl xs = marks p nl ys := by
  rw [marks_eq_flatMap_ink hnl, marks_eq_flatMap_ink hnl, h]

/-- **Texts with the same marks are respaced**, from their first letter on. -/
theorem respaced_of_marks {S : α → α → Prop} {xs ys : List α}
    (h : marks p nl xs = marks p nl ys) (hS : ∀ x ∈ xs, p x = false → S x x) :
    RespacedBy p nl S (xs.dropWhile p) (ys.dropWhile p) := by
  have key : ∀ (ms : List (Option (List α) × α)) (u v xs ys : List α),
      marksFrom p nl u xs = ms → marksFrom p nl v ys = ms → (∀ x ∈ xs, p x = false → S x x) →
      RespacedBy p nl S (xs.dropWhile p) (ys.dropWhile p) := by
    intro ms
    induction ms with
    | nil =>
      intro u v xs ys hxs hys _
      rw [List.dropWhile_eq_nil_iff.mpr (marksFrom_eq_nil hxs),
        List.dropWhile_eq_nil_iff.mpr (marksFrom_eq_nil hys)]
      exact .blank (by simp) (by simp)
    | cons m ms ih =>
      obtain ⟨k, x⟩ := m
      intro u v xs ys hxs hys hS
      obtain ⟨a, xs, rfl, ha, hx, -, hxs⟩ := marksFrom_eq_cons hxs
      obtain ⟨b, ys, rfl, hb, -, -, hys⟩ := marksFrom_eq_cons hys
      rw [dropWhile_blank_append ha hx, dropWhile_blank_append hb hx]
      have hSx : S x x := hS x (List.mem_append_right _ List.mem_cons_self) hx
      have hS' : ∀ z ∈ xs, p z = false → S z z := fun z hz =>
        hS z (List.mem_append_right _ (List.mem_cons_of_mem _ hz))
      refine .same hx hx hSx ?_
      have hrest := ih [] [] xs ys hxs hys hS'
      -- The blanks up to the next letter stand for each other.
      cases ms with
      | nil => exact .blank (marksFrom_eq_nil hxs) (marksFrom_eq_nil hys)
      | cons m ms =>
        obtain ⟨k', x'⟩ := m
        obtain ⟨a', xs, rfl, ha', hx', hk, -⟩ := marksFrom_eq_cons hxs
        obtain ⟨b', ys, rfl, hb', -, hk', -⟩ := marksFrom_eq_cons hys
        rw [dropWhile_blank_append ha' hx', dropWhile_blank_append hb' hx'] at hrest
        rw [List.nil_append] at hk hk'
        have hlead : lead nl a' = lead nl b' := by rw [← hk, ← hk']
        rcases lead_eq_iff.mp hlead with rfl | ⟨hnla, hnlb⟩
        · by_cases hne : a' = []
          · subst hne
            exact hrest
          · exact .gap (Gap.refl ha' hne) hrest
        · refine .gap ⟨ha', hb', ?_, ?_, iff_of_true hnla hnlb⟩ hrest
          · exact List.ne_nil_of_mem hnla
          · exact List.ne_nil_of_mem hnlb
  exact key _ _ _ _ _ rfl h.symm hS

end TwigTemplate.Text
