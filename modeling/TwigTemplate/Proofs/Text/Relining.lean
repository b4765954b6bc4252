import TwigTemplate.Proofs.Text.Marks
import TwigTemplate.Proofs.Text.Search

/-!
# Texts whose lines stand elsewhere

A layout that keeps each line as it is, between its first and its last letter, changes the blanks
around newlines alone.  Two such texts are read in step, from letter to letter.

* `Relined`: the relation; `relined_of_ink`: **texts with the same ink are relined**, from their
  first letters on.
* `Relined.respaced`: relined texts are respaced.
* `Relined.stretch`: **a stretch of a line that ends with a letter stands in both texts**.
* `Relined.startsWith_eq`, `Relined.takeWhile`: what is read of letters alone.
-/

namespace TwigTemplate.Text

/-- Texts with the same letters, where the blanks in front of a letter are the same or hold a
newline in both texts.  Blanks at the end are free. -/
inductive Relined : List Char → List Char → Prop
  | blank {us vs : List Char} : (∀ c ∈ us, isBlank c = true) → (∀ c ∈ vs, isBlank c = true) →
      Relined us vs
  | letter {us vs cs ds : List Char} {c : Char} : (∀ d ∈ us, isBlank d = true) →
      (∀ d ∈ vs, isBlank d = true) → lead '\n' us = lead '\n' vs → isBlank c = false →
      Relined cs ds → Relined (us ++ c :: cs) (vs ++ c :: ds)

variable {cs ds : List Char}

theorem Relined.symm (h : Relined cs ds) : Relined ds cs := by
  induction h with
  | blank hus hvs => exact .blank hvs hus
  | letter hus hvs hlead hc _ ih => exact .letter hvs hus hlead.symm hc ih

theorem Relined.cons {c : Char} (hc : isBlank c = false) (h : Relined cs ds) :
    Relined (c :: cs) (c :: ds) :=
  @Relined.letter [] [] cs ds c (by simp) (by simp) rfl hc h

/-! ### Texts with the same ink -/

theorem relined_of_marks {cs ds : List Char}
    (h : marksFrom isBlank '\n' [] cs = marksFrom isBlank '\n' [] ds) : Relined cs ds := by
  generalize hms : marksFrom isBlank '\n' [] cs = ms at h
  induction ms generalizing cs ds with
  | nil => exact .blank (marksFrom_eq_nil hms) (marksFrom_eq_nil h.symm)
  | cons m ms ih =>
    obtain ⟨us, cs, rfl, hus, hc, hlead, hrest⟩ := marksFrom_eq_cons hms
    obtain ⟨vs, ds, rfl, hvs, -, hlead', hrest'⟩ := marksFrom_eq_cons h.symm
    exact .letter hus hvs (hlead.symm.trans hlead') hc (ih hrest hrest'.symm)

/-- **Texts with the same ink are relined**, from their first letters on. -/
theorem relined_of_ink (h : inkBy isBlank '\n' cs = inkBy isBlank '\n' ds) :
    Relined (cs.dropWhile isBlank) (ds.dropWhile isBlank) := by
  have hmarks : marks isBlank '\n' cs = marks isBlank '\n' ds := marks_eq_of_ink (by decide) h
  rw [marks, marks] at hmarks
  cases hms : marksFrom isBlank '\n' ['\n'] cs with
  | nil =>
    rw [List.dropWhile_eq_nil_iff.mpr (marksFrom_eq_nil hms),
      List.dropWhile_eq_nil_iff.mpr (marksFrom_eq_nil (hmarks.symm.trans hms))]
    exact .blank (by simp) (by simp)
  | cons m ms =>
    obtain ⟨us, cs, rfl, hus, hc, -, hrest⟩ := marksFrom_eq_cons hms
    obtain ⟨vs, ds, rfl, hvs, -, -, hrest'⟩ := marksFrom_eq_cons (hmarks.symm.trans hms)
    rw [dropWhile_blank_append hus hc, dropWhile_blank_append hvs hc]
    exact (relined_of_marks (hrest.trans hrest'.symm)).cons hc

/-! ### Reading in step -/

theorem Relined.respaced (h : Relined cs ds) : Respaced cs ds := by
  induction h with
  | blank hus hvs => exact .blank hus hvs
  | @letter us vs cs ds c hus hvs hlead hc _ ih =>
    have hrest : Respaced (c :: cs) (c :: ds) := .same hc hc rfl ih
    rcases lead_eq_iff.mp hlead with rfl | ⟨hnlu, hnlv⟩
    · by_cases hne : us = []
      · subst hne
        exact hrest
      · exact .gap (Gap.refl hus hne) hrest
    · exact .gap ⟨hus, hvs, List.ne_nil_of_mem hnlu, List.ne_nil_of_mem hnlv,
        iff_of_true hnlu hnlv⟩ hrest

/-- **A stretch of a line that ends with a letter stands in both texts.** -/
theorem Relined.stretch {w : List Char} {c : Char} (h : Relined (w ++ c :: cs) ds)
    (hw : '\n' ∉ w) (hc : isBlank c = false) : ∃ ds', ds = w ++ c :: ds' ∧ Relined cs ds' := by
  generalize hxs : w ++ c :: cs = xs at h
  induction h generalizing w with
  | blank hus _ =>
    have hmem := hus c (hxs ▸ List.mem_append_right _ List.mem_cons_self)
    rw [hc] at hmem
    exact absurd hmem (by simp)
  | @letter us vs xs ys d hus _ hlead hd hrest ih =>
    have hsame : '\n' ∉ us → vs = us := fun hus =>
      ((lead_eq_iff.mp hlead).resolve_right fun hmem => hus hmem.1).symm
    rcases List.append_eq_append_iff.mp hxs with ⟨t, rfl, hct⟩ | ⟨t, rfl, hdt⟩
    · cases t with
      | nil =>
        obtain ⟨rfl, rfl⟩ := List.cons.inj hct
        rw [List.append_nil] at hsame
        exact ⟨ys, by rw [hsame hw], hrest⟩
      | cons e t =>
        obtain ⟨rfl, -⟩ := List.cons.inj hct
        rw [hus c (List.mem_append_right _ List.mem_cons_self)] at hc
        exact absurd hc (by simp)
    · rw [List.mem_append, not_or] at hw
      cases t with
      | nil =>
        obtain ⟨rfl, rfl⟩ := List.cons.inj hdt
        exact ⟨ys, by rw [hsame hw.1, List.append_nil], hrest⟩
      | cons e t =>
        obtain ⟨rfl, rfl⟩ := List.cons.inj hdt
        obtain ⟨ds', rfl, hds'⟩ := ih (fun hmem => hw.2 (List.mem_cons_of_mem _ hmem)) rfl
        exact ⟨ds', by rw [hsame hw.1, List.append_assoc, List.cons_append], hds'⟩

theorem Relined.cons_left {c : Char} (h : Relined (c :: cs) ds) (hc : isBlank c = false) :
    ∃ ds', ds = c :: ds' ∧ Relined cs ds' :=
  Relined.stretch (w := []) h (by simp) hc

theorem Relined.word {w : List Char} (h : Relined (w ++ cs) ds)
    (hw : ∀ c ∈ w, isBlank c = false) : ∃ ds', ds = w ++ ds' ∧ Relined cs ds' := by
  induction w generalizing ds with
  | nil => exact ⟨ds, rfl, h⟩
  | cons c w ih =>
    obtain ⟨hc, hw⟩ := List.forall_mem_cons.mp hw
    obtain ⟨ds', rfl, hrest⟩ := Relined.cons_left h hc
    obtain ⟨ds', rfl, hlast⟩ := ih hrest hw
    exact ⟨ds', rfl, hlast⟩

theorem Relined.startsWith_eq {w : List Char} (h : Relined cs ds)
    (hw : ∀ c ∈ w, isBlank c = false) : startsWith w cs = startsWith w ds := by
  have hleft : ∀ {cs ds : List Char}, Relined cs ds → w <+: cs → w <+: ds := by
    rintro _ ds h ⟨cs, rfl⟩
    obtain ⟨ds', rfl, -⟩ := h.word hw
    exact List.prefix_append w ds'
  rw [Bool.eq_iff_iff, startsWith_iff, startsWith_iff]
  exact ⟨hleft h, hleft h.symm⟩

theorem Relined.drop {w : List Char} (h : Relined cs ds) (hw : ∀ c ∈ w, isBlank c = false)
    (hcs : w <+: cs) : Relined (cs.drop w.length) (ds.drop w.length) := by
  obtain ⟨cs, rfl⟩ := hcs
  obtain ⟨ds, rfl, hrest⟩ := h.word hw
  rwa [List.drop_left, List.drop_left]

theorem Relined.head? (h : Relined cs ds) :
    cs.head? = ds.head? ∨
      (∀ c ∈ cs.head?, isBlank c = true) ∧ ∀ d ∈ ds.head?, isBlank d = true := by
  by_cases hcs : ∀ c ∈ cs.head?, isBlank c = true
  · by_cases hds : ∀ d ∈ ds.head?, isBlank d = true
    · exact Or.inr ⟨hcs, hds⟩
    · push Not at hds
      obtain ⟨d, hd, hink⟩ := hds
      obtain ⟨ds, rfl⟩ := List.head?_eq_some_iff.mp hd
      obtain ⟨cs, rfl, -⟩ := h.symm.cons_left (by simpa using hink)
      exact Or.inl rfl
  · push Not at hcs
    obtain ⟨c, hc, hink⟩ := hcs
    obtain ⟨cs, rfl⟩ := List.head?_eq_some_iff.mp hc
    obtain ⟨ds, rfl, -⟩ := h.cons_left (by simpa using hink)
    exact Or.inl rfl

theorem Relined.any_head? {q : Char → Bool} (h : Relined cs ds)
    (hq : ∀ c, isBlank c = true → q c = false) : cs.head?.any q = ds.head?.any q := by
  have hnone : ∀ {us : List Char}, (∀ c ∈ us.head?, isBlank c = true) → us.head?.any q = false := by
    intro us hus
    cases us with
    | nil => rfl
    | cons c us => exact hq c (hus c rfl)
  rcases h.head? with heq | ⟨hcs, hds⟩
  · rw [heq]
  · rw [hnone hcs, hnone hds]

theorem Relined.takeWhile {q : Char → Bool} (h : Relined cs ds)
    (hq : ∀ c, isBlank c = true → q c = false) :
    cs.takeWhile q = ds.takeWhile q ∧ Relined (cs.dropWhile q) (ds.dropWhile q) := by
  induction cs generalizing ds with
  | nil =>
    cases ds with
    | nil => exact ⟨rfl, h⟩
    | cons d ds =>
      have hd : q d = false := (h.any_head? hq).symm
      rw [List.takeWhile_cons_of_neg (by simp [hd]), List.dropWhile_cons_of_neg (by simp [hd])]
      exact ⟨rfl, h⟩
  | cons c cs ih =>
    by_cases hc : q c = true
    · have hink : isBlank c = false := by
        rw [← Bool.not_eq_true]
        exact fun hblank => absurd (hq c hblank) (by simp [hc])
      obtain ⟨ds, rfl, hrest⟩ := h.cons_left hink
      obtain ⟨htake, hdrop⟩ := ih hrest
      rw [List.takeWhile_cons_of_pos hc, List.takeWhile_cons_of_pos hc, htake,
        List.dropWhile_cons_of_pos hc, List.dropWhile_cons_of_pos hc]
      exact ⟨rfl, hdrop⟩
    · rw [List.takeWhile_cons_of_neg hc, List.dropWhile_cons_of_neg hc]
      cases ds with
      | nil => exact ⟨rfl, h⟩
      | cons d ds =>
        have hd : ¬ q d = true := fun hd => hc ((h.any_head? hq).trans hd)
        rw [List.takeWhile_cons_of_neg hd, List.dropWhile_cons_of_neg hd]
        exact ⟨rfl, h⟩

end TwigTemplate.Text
