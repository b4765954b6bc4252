import TwigTemplate.Proofs.Text.Lines

/-!
# Line ends as newlines

Writing every line end of a text as a newline keeps its lines, unless a carriage return stands
alone: this one does not end a line, but the newline written for it does.

* `LoneReturn`: a carriage return that no newline follows.
* `loneReturn_iff`: it is one that stands in a line.
* `newlineCount_unifyNewlines`: each of them makes one newline more.
* `lines_unifyNewlines_iff`: **the lines stay exactly when no carriage return stands alone**.
-/

namespace TwigTemplate.Text

/-- A carriage return that no newline follows. -/
def LoneReturn (cs : List Char) : Prop :=
  ∃ front rest, cs = front ++ '\r' :: rest ∧ rest.head? ≠ some '\n'

/-! ### Lone carriage returns -/

theorem not_loneReturn_nil : ¬ LoneReturn [] := by
  rintro ⟨front, rest, h, -⟩
  simp at h

theorem loneReturn_cons_iff {c : Char} {cs : List Char} :
    LoneReturn (c :: cs) ↔ (c = '\r' ∧ cs.head? ≠ some '\n') ∨ LoneReturn cs := by
  constructor
  · rintro ⟨front, rest, heq, hhead⟩
    cases front with
    | nil =>
      obtain ⟨rfl, rfl⟩ := List.cons.inj heq
      exact Or.inl ⟨rfl, hhead⟩
    | cons d front => exact Or.inr ⟨front, rest, (List.cons.inj heq).2, hhead⟩
  · rintro (⟨rfl, hhead⟩ | ⟨front, rest, rfl, hhead⟩)
    · exact ⟨[], cs, rfl, hhead⟩
    · exact ⟨c :: front, rest, rfl, hhead⟩

theorem LoneReturn.of_append {cs ds : List Char} (h : LoneReturn (cs ++ ds)) :
    LoneReturn cs ∨ LoneReturn ds := by
  induction cs with
  | nil => exact Or.inr h
  | cons c cs ih =>
    rw [List.cons_append] at h
    rcases loneReturn_cons_iff.mp h with ⟨rfl, hhead⟩ | h
    · refine Or.inl (loneReturn_cons_iff.mpr (Or.inl ⟨rfl, ?_⟩))
      cases cs with
      | nil => exact nofun
      | cons d cs => exact hhead
    · exact (ih h).imp_left fun hcs => loneReturn_cons_iff.mpr (Or.inr hcs)

theorem LoneReturn.append {cs ds : List Char} (h : LoneReturn cs) (hds : ds.head? ≠ some '\n') :
    LoneReturn (cs ++ ds) := by
  obtain ⟨front, rest, rfl, hhead⟩ := h
  refine ⟨front, rest ++ ds, by rw [List.append_assoc, List.cons_append], ?_⟩
  cases rest with
  | nil => exact hds
  | cons d rest => exact hhead

/-! ### Line by line -/

theorem dropReturn_cons_cons (c d : Char) (l : List Char) :
    dropReturn (c :: d :: l) = c :: dropReturn (d :: l) := by
  rw [dropReturn, dropReturn, List.getLast?_cons_cons, List.dropLast_cons_cons]
  split <;> rfl

theorem dropReturn_of_not_mem {l : List Char} (h : '\r' ∉ l) : dropReturn l = l :=
  if_neg fun hlast => h (List.mem_of_getLast? hlast)

theorem loneReturn_of_not_mem {cs : List Char} (h : '\n' ∉ cs) : LoneReturn cs ↔ '\r' ∈ cs := by
  constructor
  · rintro ⟨front, rest, rfl, -⟩
    simp
  · intro hmem
    obtain ⟨front, rest, rfl, -⟩ := List.eq_append_cons_of_mem hmem
    refine ⟨front, rest, rfl, fun hhead => h ?_⟩
    exact List.mem_append_right _ (List.mem_cons_of_mem _ (List.mem_of_head? hhead))

theorem loneReturn_append_newline {l : List Char} (h : '\n' ∉ l) (cs : List Char) :
    LoneReturn (l ++ '\n' :: cs) ↔ '\r' ∈ dropReturn l ∨ LoneReturn cs := by
  induction l with
  | nil =>
    rw [List.nil_append, loneReturn_cons_iff]
    exact or_congr_left (iff_of_false (fun h => absurd h.1 (by decide)) List.not_mem_nil)
  | cons c l ih =>
    rw [List.mem_cons, not_or] at h
    rw [List.cons_append, loneReturn_cons_iff, ih h.2, ← or_assoc]
    refine or_congr_left ?_
    cases l with
    | nil =>
      by_cases hc : c = '\r'
      · subst hc
        simp [dropReturn]
      · have hfree : '\r' ∉ [c] := fun hmem => hc (List.mem_singleton.mp hmem).symm
        rw [dropReturn_of_not_mem hfree]
        simp [hc, dropReturn, Ne.symm hc]
    | cons d l =>
      have hd : d ≠ '\n' := fun he => h.2 (he ▸ List.mem_cons_self)
      rw [dropReturn_cons_cons, List.mem_cons, eq_comm]
      simp [hd]

/-- **A carriage return stands alone when it stands in a line.** -/
theorem loneReturn_iff {cs : List Char} : LoneReturn cs ↔ '\r' ∈ (lines cs).flatten := by
  induction cs using line_induction with
  | last cs hfree =>
    rw [lines_of_not_mem hfree, loneReturn_of_not_mem hfree]
    split <;> simp_all
  | line l cs hfree ih =>
    rw [lines_append_newline hfree, List.flatten_cons, List.mem_append, ← ih,
      loneReturn_append_newline hfree]

theorem unifyNewlines_cons {c : Char} {cs : List Char} (h : cs.head? ≠ some '\n') :
    unifyNewlines (c :: cs) = (if c = '\r' then '\n' else c) :: unifyNewlines cs := by
  refine unifyNewlines.eq_3 c cs fun r hc hr => h ?_
  rw [hr, List.head?_cons]

theorem unifyNewlines_cons_of_ne {c : Char} (hc : c ≠ '\r') (cs : List Char) :
    unifyNewlines (c :: cs) = c :: unifyNewlines cs := by
  rw [unifyNewlines.eq_3 c cs fun _ hret => absurd hret hc, if_neg hc]

theorem unifyNewlines_of_not_return {cs : List Char} (h : '\r' ∉ cs) : unifyNewlines cs = cs := by
  induction cs with
  | nil => rw [unifyNewlines]
  | cons c cs ih =>
    rw [List.mem_cons, not_or] at h
    rw [unifyNewlines_cons_of_ne (Ne.symm h.1), ih h.2]

theorem unifyNewlines_append {cs : List Char} (h : cs.getLast? ≠ some '\r') (ds : List Char) :
    unifyNewlines (cs ++ ds) = unifyNewlines cs ++ unifyNewlines ds := by
  have htail : ∀ {c : Char} {r : List Char}, (c :: r).getLast? ≠ some '\r' →
      r.getLast? ≠ some '\r' := fun {c r} hlast => by
    cases r with
    | nil => exact nofun
    | cons d r => rwa [← List.getLast?_cons_cons]
  fun_induction unifyNewlines cs with
  | case1 => rfl
  | case2 r ih =>
    rw [List.cons_append, List.cons_append, List.cons_append, ← ih (htail (htail h))]
    exact unifyNewlines.eq_2 (r ++ ds)
  | case3 c r hcut ih =>
    have hnext : ∀ rest, c = '\r' → r ++ ds = '\n' :: rest → False := by
      intro rest hc heq
      cases r with
      | nil => exact h (congrArg some hc)
      | cons d r => exact hcut r hc (congrArg (· :: r) (List.cons.inj heq).1)
    rw [List.cons_append, List.cons_append, unifyNewlines.eq_3 c _ hnext, ih (htail h)]

theorem unifyNewlines_of_not_mem {l : List Char} (h : '\n' ∉ l) :
    unifyNewlines l = l.map fun c => if c = '\r' then '\n' else c := by
  induction l with
  | nil => rw [unifyNewlines, List.map_nil]
  | cons c l ih =>
    rw [List.mem_cons, not_or] at h
    rw [unifyNewlines_cons fun hhead => h.2 (List.mem_of_head? hhead), ih h.2, List.map_cons]

theorem unifyNewlines_append_newline {l : List Char} (h : '\n' ∉ l) (cs : List Char) :
    unifyNewlines (l ++ '\n' :: cs) =
      unifyNewlines (dropReturn l) ++ '\n' :: unifyNewlines cs := by
  have hnewline : unifyNewlines ('\n' :: cs) = '\n' :: unifyNewlines cs :=
    unifyNewlines_cons_of_ne (by decide) cs
  induction l with
  | nil => exact hnewline
  | cons c l ih =>
    rw [List.mem_cons, not_or] at h
    cases l with
    | nil =>
      by_cases hc : c = '\r'
      · subst hc
        exact unifyNewlines.eq_2 cs
      · rw [dropReturn_of_not_mem (by simpa using Ne.symm hc), List.singleton_append,
          unifyNewlines_cons_of_ne hc, hnewline, unifyNewlines_cons_of_ne hc]
        rfl
    | cons d l =>
      have hd : d ≠ '\n' := fun he => h.2 (he ▸ List.mem_cons_self)
      have hfree : '\n' ∉ dropReturn (d :: l) := fun hmem => h.2 (mem_of_mem_dropReturn hmem)
      rw [dropReturn_cons_cons, List.cons_append, unifyNewlines_cons (by simpa using hd), ih h.2,
        unifyNewlines_cons fun hhead => hfree (List.mem_of_head? hhead), List.cons_append]

theorem return_not_mem_unifyNewlines (cs : List Char) : '\r' ∉ unifyNewlines cs := by
  fun_induction unifyNewlines cs with
  | case1 => exact List.not_mem_nil
  | case2 r ih => exact List.not_mem_cons_of_ne_of_not_mem (by decide) ih
  | case3 c r _ ih =>
    refine List.not_mem_cons_of_ne_of_not_mem ?_ ih
    split
    · decide
    · next hc => exact Ne.symm hc

/-- A carriage return that stands alone is a newline more, and no other one is. -/
theorem newlineCount_unifyNewlines (cs : List Char) :
    newlineCount (unifyNewlines cs) = newlineCount cs + (lines cs).flatten.count '\r' := by
  have hline : ∀ l : List Char, '\n' ∉ l →
      newlineCount (unifyNewlines l) = l.count '\r' := fun l hl => by
    rw [unifyNewlines_of_not_mem hl, newlineCount]
    induction l with
    | nil => rfl
    | cons c l ih =>
      rw [List.mem_cons, not_or] at hl
      rw [List.map_cons, List.count_cons, List.count_cons, ih hl.2]
      split <;> simp_all [Ne.symm hl.1]
  induction cs using line_induction with
  | last cs hfree =>
    rw [hline cs hfree, newlineCount_eq_zero.mpr hfree, lines_of_not_mem hfree, Nat.zero_add]
    split <;> simp_all
  | line l cs hfree ih =>
    have hdrop := hline (dropReturn l) fun hmem => hfree (mem_of_mem_dropReturn hmem)
    have hcons : ∀ ds : List Char, newlineCount ('\n' :: ds) = newlineCount ds + 1 := fun ds =>
      List.count_cons_self
    rw [unifyNewlines_append_newline hfree, lines_append_newline hfree, List.flatten_cons,
      List.count_append, newlineCount_append, newlineCount_append, hdrop, hcons, hcons, ih,
      newlineCount_eq_zero.mpr hfree]
    omega

theorem newlineCount_lt_of_loneReturn {cs : List Char} (h : LoneReturn cs) :
    newlineCount cs < newlineCount (unifyNewlines cs) := by
  rw [newlineCount_unifyNewlines]
  exact Nat.lt_add_of_pos_right (List.count_pos_iff.mpr (loneReturn_iff.mp h))

/-- **The lines of a text stay when its line ends are written as newlines**, exactly when no
carriage return stands alone. -/
theorem lines_unifyNewlines_iff {cs : List Char} :
    lines (unifyNewlines cs) = lines cs ↔ ¬ LoneReturn cs := by
  constructor
  · intro h hlone
    rw [loneReturn_iff, ← h] at hlone
    obtain ⟨l, hl, hmem⟩ := List.mem_flatten.mp hlone
    obtain ⟨part, hpart, hcut⟩ := exists_mem_splitOn_of_mem_lines hl
    refine return_not_mem_unifyNewlines cs (mem_of_mem_splitOn hpart ?_)
    rcases hcut with rfl | rfl
    · exact hmem
    · exact List.mem_append_left _ hmem
  · intro h
    induction cs using line_induction with
    | last cs hfree =>
      rw [loneReturn_of_not_mem hfree] at h
      rw [unifyNewlines_of_not_return h]
    | line l cs hfree ih =>
      rw [loneReturn_append_newline hfree, not_or] at h
      have hdrop : '\n' ∉ dropReturn l := fun hmem => hfree (mem_of_mem_dropReturn hmem)
      rw [unifyNewlines_append_newline hfree, unifyNewlines_of_not_return h.1,
        lines_append_newline hdrop, lines_append_newline hfree, ih h.2,
        dropReturn_of_not_mem h.1]

end TwigTemplate.Text
