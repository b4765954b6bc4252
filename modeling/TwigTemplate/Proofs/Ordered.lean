import Mathlib.Data.List.Basic

/-!
# Lists in the order of a number

The regions and tags of a document stand in the order of their lines.  So what stands on a
line, before it and after it are stretches of the list.

* `takeWhile_eq_filter`, `filter_append_filter_not`: a list cut where a property ends.
* `filter_lt_succ`, `filter_eq_append_filter_gt`: cut around one number.
* `filter_flatten`: rows that are numbered one after the other.
* `eq_of_filter_eq`: **a list in order is determined by what it has at each number**.
* `filter_mergeSort`, `mergeSort_append`: sorting by a number, of a part and of two stretches.
-/

namespace TwigTemplate.Ordered

variable {α : Type} {f : α → Nat} {l : List α}

section Cut

variable {p : α → Bool}

theorem takeWhile_eq_filter (h : l.Pairwise fun a b => p b = true → p a = true) :
    l.takeWhile p = l.filter p ∧ l.dropWhile p = l.filter (!p ·) := by
  induction l with
  | nil => exact ⟨rfl, rfl⟩
  | cons a l ih =>
    obtain ⟨ha, hl⟩ := List.pairwise_cons.mp h
    obtain ⟨htake, hdrop⟩ := ih hl
    by_cases hp : p a = true
    · rw [List.takeWhile_cons_of_pos hp, List.filter_cons_of_pos hp, List.dropWhile_cons_of_pos hp,
        List.filter_cons_of_neg (by simp [hp]), htake, hdrop]
      exact ⟨rfl, rfl⟩
    · have hnone : ∀ b ∈ a :: l, ¬ p b = true := fun b hb hpb => by
        rcases List.mem_cons.mp hb with rfl | hb
        · exact hp hpb
        · exact hp (ha b hb hpb)
      rw [List.takeWhile_cons_of_neg hp, List.dropWhile_cons_of_neg hp,
        List.filter_eq_nil_iff.mpr hnone]
      refine ⟨rfl, (List.filter_eq_self.mpr fun b hb => ?_).symm⟩
      rw [Bool.not_eq_true', ← Bool.not_eq_true]
      exact hnone b hb

theorem filter_append_filter_not (h : l.Pairwise fun a b => p b = true → p a = true) :
    l.filter p ++ l.filter (!p ·) = l := by
  obtain ⟨htake, hdrop⟩ := takeWhile_eq_filter h
  rw [← htake, ← hdrop, List.takeWhile_append_dropWhile]

end Cut

theorem filter_lt_succ (h : l.Pairwise fun a b => f a ≤ f b) (n : Nat) :
    l.filter (f · < n + 1) = l.filter (f · < n) ++ l.filter (f · = n) := by
  have hcut := filter_append_filter_not (p := (f · < n)) ((h.filter (f · < n + 1)).imp
    fun {a b} hab hb => by
      rw [decide_eq_true_eq] at hb ⊢
      omega)
  rw [← hcut, List.filter_filter, List.filter_filter]
  congr 1
  · apply List.filter_congr
    intro a _
    rw [Bool.eq_iff_iff, Bool.and_eq_true, decide_eq_true_eq, decide_eq_true_eq]
    omega
  · apply List.filter_congr
    intro a _
    rw [Bool.eq_iff_iff, Bool.and_eq_true, Bool.not_eq_true', decide_eq_false_iff_not,
      decide_eq_true_eq, decide_eq_true_eq]
    omega

theorem filter_eq_append_filter_gt (h : l.Pairwise fun a b => f a ≤ f b) {n : Nat}
    (hn : ∀ a ∈ l, n ≤ f a) : l.filter (f · = n) ++ l.filter (n < f ·) = l := by
  have hcut := filter_append_filter_not (p := (f · = n)) (h.imp_of_mem fun {a b} ha _ hab hb => by
    have := hn a ha
    rw [decide_eq_true_eq] at hb ⊢
    omega)
  conv_rhs => rw [← hcut]
  congr 1
  apply List.filter_congr
  intro a ha
  have := hn a ha
  rw [Bool.eq_iff_iff, Bool.not_eq_true', decide_eq_false_iff_not, decide_eq_true_eq]
  omega

theorem filter_flatten {rows : List (List α)} {n : Nat}
    (h : ∀ i row, rows[i]? = some row → ∀ a ∈ row, f a = n + i) (i : Nat) :
    rows.flatten.filter (f · = n + i) = rows[i]?.getD [] ∧
      rows.flatten.filter (f · < n + i) = (rows.take i).flatten := by
  induction rows generalizing n i with
  | nil => simp
  | cons row rows ih =>
    have hrow : ∀ a ∈ row, f a = n := fun a ha => h 0 row rfl a ha
    have hrows : ∀ i row, rows[i]? = some row → ∀ a ∈ row, f a = n + 1 + i :=
      fun i row hi a ha => by
        rw [h (i + 1) row hi a ha]
        omega
    rw [List.flatten_cons, List.filter_append, List.filter_append]
    cases i with
    | zero =>
      have hlater : ∀ a ∈ rows.flatten, n < f a := fun a ha => by
        obtain ⟨row, hmem, ha⟩ := List.mem_flatten.mp ha
        obtain ⟨j, hj⟩ := List.mem_iff_getElem?.mp hmem
        rw [hrows j row hj a ha]
        omega
      rw [List.filter_eq_self.mpr fun a ha => by simpa using hrow a ha,
        List.filter_eq_nil_iff.mpr fun a ha => by simpa using Nat.ne_of_gt (hlater a ha),
        List.filter_eq_nil_iff.mpr fun a ha => by simpa using Nat.le_of_eq (hrow a ha).symm,
        List.filter_eq_nil_iff.mpr fun a ha => by simpa using Nat.le_of_lt (hlater a ha)]
      simp
    | succ i =>
      obtain ⟨heq, hlt⟩ := ih hrows i
      have hshift : n + (i + 1) = n + 1 + i := by omega
      rw [hshift, heq, hlt,
        List.filter_eq_nil_iff.mpr fun a ha => by rw [decide_eq_true_eq, hrow a ha]; omega,
        List.filter_eq_self.mpr fun a ha => by rw [decide_eq_true_eq, hrow a ha]; omega]
      exact ⟨rfl, rfl⟩

/-! ### Sorting -/

/-- **Two lists in order are equal when they have the same at each number.** -/
theorem eq_of_filter_eq {m : List α} (hl : l.Pairwise fun a b => f a ≤ f b)
    (hm : m.Pairwise fun a b => f a ≤ f b)
    (h : ∀ n, l.filter (f · = n) = m.filter (f · = n)) : l = m := by
  have hmem : ∀ a, a ∈ l ↔ a ∈ m := fun a => by
    have hsame : a ∈ l.filter (f · = f a) ↔ a ∈ m.filter (f · = f a) := by rw [h]
    simpa using hsame
  induction l generalizing m with
  | nil =>
    cases m with
    | nil => rfl
    | cons b m => exact absurd ((hmem b).mpr List.mem_cons_self) List.not_mem_nil
  | cons a l ih =>
    cases m with
    | nil => exact absurd ((hmem a).mp List.mem_cons_self) List.not_mem_nil
    | cons b m =>
      obtain ⟨ha, hlTail⟩ := List.pairwise_cons.mp hl
      obtain ⟨hb, hmTail⟩ := List.pairwise_cons.mp hm
      have hab : f a ≤ f b := by
        rcases List.mem_cons.mp ((hmem b).mpr List.mem_cons_self) with rfl | hmem
        · exact Nat.le_refl _
        · exact ha b hmem
      have hba : f b ≤ f a := by
        rcases List.mem_cons.mp ((hmem a).mp List.mem_cons_self) with rfl | hmem
        · exact Nat.le_refl _
        · exact hb a hmem
      have hkey : f b = f a := Nat.le_antisymm hba hab
      have hhead := h (f a)
      rw [List.filter_cons_of_pos (by simp), List.filter_cons_of_pos (by simp [hkey])] at hhead
      obtain ⟨rfl, -⟩ := List.cons.inj hhead
      have hrest : ∀ n, l.filter (f · = n) = m.filter (f · = n) := fun n => by
        have hn := h n
        rw [List.filter_cons, List.filter_cons] at hn
        split at hn
        · exact (List.cons.inj hn).2
        · exact hn
      refine congrArg (a :: ·) (ih hlTail hmTail hrest fun c => ?_)
      have hsame : c ∈ l.filter (f · = f c) ↔ c ∈ m.filter (f · = f c) := by rw [hrest]
      simpa using hsame

/-- The order by a number. -/
def byKey (f : α → Nat) (a b : α) : Bool :=
  f a ≤ f b

theorem byKey_trans (f : α → Nat) (a b c : α) (hab : byKey f a b = true)
    (hbc : byKey f b c = true) : byKey f a c = true := by
  rw [byKey, decide_eq_true_eq] at *
  omega

theorem byKey_total (f : α → Nat) (a b : α) : (byKey f a b || byKey f b a) = true := by
  rw [byKey, byKey, Bool.or_eq_true, decide_eq_true_eq, decide_eq_true_eq]
  omega

theorem pairwise_mergeSort (f : α → Nat) (l : List α) :
    (l.mergeSort (byKey f)).Pairwise fun a b => f a ≤ f b :=
  (List.pairwise_mergeSort (byKey_trans f) (byKey_total f) l).imp of_decide_eq_true

/-- Sorting leaves what is at one number as it stands. -/
theorem filter_key_mergeSort (f : α → Nat) (l : List α) (n : Nat) :
    (l.mergeSort (byKey f)).filter (f · = n) = l.filter (f · = n) := by
  have hkeys : (l.filter (f · = n)).Pairwise fun a b => byKey f a b = true := by
    refine List.pairwise_of_forall_mem_list fun a ha b hb => ?_
    have hfa := of_decide_eq_true (List.mem_filter.mp ha).2
    have hfb := of_decide_eq_true (List.mem_filter.mp hb).2
    exact decide_eq_true (Nat.le_of_eq (hfa.trans hfb.symm))
  have hsub := (List.sublist_mergeSort (byKey_trans f) (byKey_total f) hkeys
    List.filter_sublist).filter (f · = n)
  rw [List.filter_filter] at hsub
  simp only [Bool.and_self] at hsub
  exact (hsub.eq_of_length ((List.mergeSort_perm l _).filter _).length_eq.symm).symm

/-- **A part of a list is sorted with the list.** -/
theorem filter_mergeSort (f : α → Nat) (p : α → Bool) (l : List α) :
    (l.mergeSort (byKey f)).filter p = (l.filter p).mergeSort (byKey f) := by
  refine eq_of_filter_eq (f := f) ((pairwise_mergeSort f l).filter p) (pairwise_mergeSort f _)
    fun n => ?_
  rw [filter_key_mergeSort, List.filter_comm, filter_key_mergeSort, List.filter_comm]

/-- **Stretches with numbers apart are sorted one by one.** -/
theorem mergeSort_append {m : List α} (h : ∀ a ∈ l, ∀ b ∈ m, f a ≤ f b) :
    (l ++ m).mergeSort (byKey f) = l.mergeSort (byKey f) ++ m.mergeSort (byKey f) := by
  have hsorted : (l.mergeSort (byKey f) ++ m.mergeSort (byKey f)).Pairwise
      fun a b => f a ≤ f b :=
    List.pairwise_append.mpr ⟨pairwise_mergeSort f l, pairwise_mergeSort f m, fun a ha b hb =>
      h a (List.mem_mergeSort.mp ha) b (List.mem_mergeSort.mp hb)⟩
  refine eq_of_filter_eq (pairwise_mergeSort f _) hsorted fun n => ?_
  rw [filter_key_mergeSort, List.filter_append, List.filter_append, filter_key_mergeSort,
    filter_key_mergeSort]

end TwigTemplate.Ordered
