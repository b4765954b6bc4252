import TwigTemplate.Text.Search

/-!
# What a search finds

The searches of `Text/Search.lean` in terms of list order.

* `after?_eq_some_iff`: the text after a word at the start.
* `occursIn_iff`: occurring is being an infix.
* `cutAt?_eq_none`, `eq_append_of_cutAt?`, `cutAt?_append`, `cutAt?_singleton_eq_some_iff`: a cut
  is made at the first occurrence.
* `cutAtLast?_append`: a last cut is made at the last one.
-/

namespace TwigTemplate.Text

theorem after?_append (needle rest : List Char) : after? needle (needle ++ rest) = some rest := by
  induction needle with
  | nil => rfl
  | cons n needle ih => rw [List.cons_append, after?, if_pos rfl, ih]

theorem after?_eq_some_iff {needle cs rest : List Char} :
    after? needle cs = some rest ↔ cs = needle ++ rest := by
  constructor
  · exact eq_append_of_after?
  · rintro rfl
    exact after?_append needle rest

theorem startsWith_iff {needle cs : List Char} : startsWith needle cs = true ↔ needle <+: cs := by
  rw [startsWith, Option.isSome_iff_exists]
  constructor
  · rintro ⟨rest, h⟩
    exact ⟨rest, (after?_eq_some_iff.mp h).symm⟩
  · rintro ⟨rest, h⟩
    exact ⟨rest, after?_eq_some_iff.mpr h.symm⟩

/-- **A word occurs in a text when the text is cut around it.** -/
theorem occursIn_iff {needle cs : List Char} : occursIn needle cs = true ↔ needle <:+: cs := by
  induction cs with
  | nil => rw [occursIn, List.isEmpty_iff, List.infix_nil]
  | cons c r ih => rw [occursIn, Bool.or_eq_true, startsWith_iff, ih, List.infix_cons_iff]

theorem cutAt?_eq_none {needle cs : List Char} (h : ¬ needle <:+: cs) :
    cutAt? needle cs = none := by
  induction cs with
  | nil =>
    rw [cutAt?, if_neg]
    intro he
    cases needle with
    | nil => exact h List.nil_infix
    | cons n needle => simp at he
  | cons c r ih =>
    rw [List.infix_cons_iff, not_or] at h
    have hnone : after? needle (c :: r) = none := by
      cases hafter : after? needle (c :: r) with
      | none => rfl
      | some rest => exact absurd ⟨rest, (after?_eq_some_iff.mp hafter).symm⟩ h.1
    rw [cutAt?, hnone, ih h.2]
    rfl

/-- A cut gives the text before a word, and the text after it. -/
theorem eq_append_of_cutAt? {needle cs before rest : List Char}
    (h : cutAt? needle cs = some (before, rest)) : cs = before ++ (needle ++ rest) := by
  induction cs generalizing before with
  | nil =>
    rw [cutAt?] at h
    split at h
    · next hempty =>
      obtain ⟨rfl, rfl⟩ : [] = before ∧ [] = rest := by simpa using h
      rw [List.isEmpty_iff.mp hempty]
      rfl
    · exact absurd h (by simp)
  | cons c r ih =>
    rw [cutAt?] at h
    split at h
    · next after hafter =>
      obtain ⟨rfl, rfl⟩ : [] = before ∧ after = rest := by simpa using h
      rw [List.nil_append, after?_eq_some_iff.mp hafter]
    · obtain ⟨⟨front, back⟩, hcut, he⟩ := Option.map_eq_some_iff.mp h
      obtain ⟨rfl, rfl⟩ : c :: front = before ∧ back = rest := by simpa using he
      rw [ih hcut, List.cons_append]

theorem cutAt?_append {needle u v : List Char} (hne : needle ≠ [])
    (hfirst : ∀ w, w <:+ u → w ≠ [] → ¬ needle <+: w ++ (needle ++ v)) :
    cutAt? needle (u ++ (needle ++ v)) = some (u, v) := by
  induction u with
  | nil =>
    obtain ⟨n, rest, rfl⟩ := List.exists_cons_of_ne_nil hne
    rw [List.nil_append, List.cons_append, cutAt?, ← List.cons_append, after?_append]
  | cons c u ih =>
    have hnone : after? needle (c :: (u ++ (needle ++ v))) = none := by
      cases hafter : after? needle (c :: (u ++ (needle ++ v))) with
      | none => rfl
      | some rest =>
        refine absurd ⟨rest, ?_⟩ (hfirst (c :: u) List.suffix_rfl (by simp))
        exact (after?_eq_some_iff.mp hafter).symm
    rw [List.cons_append, cutAt?, hnone,
      ih fun w hw => hfirst w (hw.trans (List.suffix_cons c u))]
    rfl

/-- **A cut at a character** is made where it first stands. -/
theorem cutAt?_singleton_eq_some_iff {c : Char} {cs before rest : List Char} :
    cutAt? [c] cs = some (before, rest) ↔ c ∉ before ∧ cs = before ++ c :: rest := by
  have hfirst : ∀ {u v : List Char}, c ∉ u → cutAt? [c] (u ++ c :: v) = some (u, v) := by
    intro u v hu
    refine cutAt?_append (List.cons_ne_nil c []) fun w hw hne hstart => ?_
    obtain ⟨d, w, rfl⟩ := List.exists_cons_of_ne_nil hne
    rw [List.cons_append, List.cons_prefix_cons] at hstart
    exact hu (hw.subset (hstart.1 ▸ List.mem_cons_self))
  constructor
  · intro h
    have hcut := eq_append_of_cutAt? h
    refine ⟨fun hmem => ?_, hcut⟩
    -- The first of several places would be the cut.
    obtain ⟨u, v, rfl, hu⟩ := List.eq_append_cons_of_mem hmem
    rw [hcut, List.append_assoc, List.cons_append, hfirst hu] at h
    simp at h
  · rintro ⟨hbefore, rfl⟩
    exact hfirst hbefore

theorem cutAtLast?_eq_none {needle cs : List Char} (h : ¬ needle <:+: cs) :
    cutAtLast? needle cs = none := by
  induction cs with
  | nil =>
    rw [cutAtLast?, if_neg]
    intro he
    rw [List.isEmpty_iff.mp he] at h
    exact h List.nil_infix
  | cons c r ih =>
    rw [List.infix_cons_iff, not_or] at h
    rw [cutAtLast?, ih h.2, if_neg fun hstart => h.1 (startsWith_iff.mp hstart)]

/-- **A last cut** is made where the word stands for the last time: behind its first character there
is none of the kind. -/
theorem cutAtLast?_append {c : Char} {needle v : List Char} (hc : c ∉ needle ++ v) (u : List Char) :
    cutAtLast? (c :: needle) (u ++ c :: (needle ++ v)) = some (u, c :: (needle ++ v)) := by
  induction u with
  | nil =>
    have hnone : cutAtLast? (c :: needle) (needle ++ v) = none :=
      cutAtLast?_eq_none fun hoccurs => hc (hoccurs.subset List.mem_cons_self)
    rw [List.nil_append, cutAtLast?, hnone]
    exact if_pos (startsWith_iff.mpr ⟨v, rfl⟩)
  | cons d u ih => rw [List.cons_append, cutAtLast?, ih]

theorem prefix_of_prefix_append_cons {needle u v : List Char} {c : Char} (hc : c ∉ needle)
    (h : needle <+: u ++ c :: v) : needle <+: u := by
  induction needle generalizing u with
  | nil => exact List.nil_prefix
  | cons n needle ih =>
    rw [List.mem_cons, not_or] at hc
    cases u with
    | nil =>
      rw [List.nil_append, List.cons_prefix_cons] at h
      exact absurd h.1.symm hc.1
    | cons d u =>
      rw [List.cons_append, List.cons_prefix_cons] at h
      exact List.cons_prefix_cons.mpr ⟨h.1, ih hc.2 h.2⟩

end TwigTemplate.Text
