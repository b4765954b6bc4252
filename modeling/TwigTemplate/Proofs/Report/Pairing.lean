import Mathlib.Data.List.Nodup
import TwigTemplate.Proofs.Report.Structure

/-!
# Which statement closes which block

An analysis takes the innermost open block off its stack at every closing statement.  Reading
these steps off a run says which statement closes which block.

* `pairings`: the closing statements of a run, each with the block that it takes off.
* `nodup_pairings`: no block is closed twice.
* `Cut`, `exists_cut`: **what a run does to the stack**: it takes blocks off, and puts on those
  that it opens and leaves open.
* `Nested`: a run that finds nothing wrong with the nesting.
* `openOf`: the open blocks of one tag.
-/

namespace TwigTemplate.Analysis

open Nesting (Event)

/-- The block that a region takes off the stack, with the region. -/
def closing? (st : List Frame) (r : Region) : Option (Frame × Region) :=
  match Event.ofRegion? r, st with
  | some (.closes _), f :: _ => some (f, r)
  | _, _ => none

/-- The blocks that are closed by some regions, each with the region that closes it. -/
def pairings (options : LintOptions) : List Frame → List Region → List (Frame × Region)
  | _, [] => []
  | st, r :: rs => (closing? st r).toList ++ pairings options (regionCauses options r st).1 rs

/-- **What a region does to the stack**: it puts a block on, takes one off, or does nothing. -/
theorem step_cases (options : LintOptions) (st : List Frame) (r : Region) :
    (∃ f, opening? r = some f ∧ (regionCauses options r st).1 = f :: st ∧ closing? st r = none) ∨
      (∃ f, opening? r = none ∧ st = f :: (regionCauses options r st).1 ∧
        closing? st r = some (f, r)) ∨
      (opening? r = none ∧ (regionCauses options r st).1 = st ∧ closing? st r = none) := by
  have hstep := nests_regionCauses options r st
  have hopening : ∀ e, Event.ofRegion? r = e →
      opening? r = e.bind fun e => e.opened?.map (Frame.ofRegion · r) := fun e he => by
    rw [opening?, he]
  generalize (regionCauses options r st).1 = next at hstep ⊢
  generalize structural (regionCauses options r st).2 = causes at hstep
  cases hstep with
  | opens he => exact Or.inl ⟨_, hopening _ he, rfl, by simp only [closing?, he]⟩
  | closes he => exact Or.inr (Or.inl ⟨_, hopening _ he, rfl, by simp only [closing?, he]⟩)
  | mismatched he hne => exact Or.inr (Or.inl ⟨_, hopening _ he, rfl, by simp only [closing?, he]⟩)
  | unexpected he => exact Or.inr (Or.inr ⟨hopening _ he, rfl, by simp only [closing?, he]⟩)
  | branch he => exact Or.inr (Or.inr ⟨hopening _ he, rfl, by simp only [closing?, he]⟩)
  | keeps he => exact Or.inr (Or.inr ⟨hopening _ he, rfl, by simp only [closing?, he]⟩)

section Run

variable {options : LintOptions} {st : List Frame} {rs ss : List Region} {p : Frame × Region}

theorem run_append :
    (run options st (rs ++ ss)).1 = (run options (run options st rs).1 ss).1 := by
  induction rs generalizing st with
  | nil => rfl
  | cons r rs ih =>
    rw [List.cons_append, run_cons, run_cons]
    exact ih

theorem pairings_append :
    pairings options st (rs ++ ss) =
      pairings options st rs ++ pairings options (run options st rs).1 ss := by
  induction rs generalizing st with
  | nil => rfl
  | cons r rs ih =>
    rw [List.cons_append, pairings, pairings, ih, run_cons, List.append_assoc]

theorem mem_pairings_cons {r : Region} :
    p ∈ pairings options st (r :: rs) ↔
      closing? st r = some p ∨ p ∈ pairings options (regionCauses options r st).1 rs := by
  rw [pairings, List.mem_append, Option.mem_toList]

/-- What is taken off the stack is taken off by a region that is read, and was put on before or
by such a region. -/
theorem mem_of_mem_pairings (h : p ∈ pairings options st rs) :
    p.2 ∈ rs ∧ (p.1 ∈ st ∨ p.1 ∈ openings rs) := by
  induction rs generalizing st with
  | nil => exact absurd h (by simp [pairings])
  | cons r rs ih =>
    rw [openings_cons, List.mem_append, Option.mem_toList, List.mem_cons]
    rcases mem_pairings_cons.mp h with h | h
    · rcases step_cases options st r with ⟨f, -, -, hnone⟩ | ⟨f, -, hst, hsome⟩ | ⟨-, -, hnone⟩
      · exact absurd (hnone.symm.trans h) (by simp)
      · obtain rfl := Option.some.inj (hsome.symm.trans h)
        refine ⟨Or.inl rfl, Or.inl ?_⟩
        rw [hst]
        exact List.mem_cons_self
      · exact absurd (hnone.symm.trans h) (by simp)
    · obtain ⟨hregion, hframe⟩ := ih h
      refine ⟨Or.inr hregion, ?_⟩
      rcases hframe with hopen | hopen
      · rcases step_cases options st r with ⟨f, hf, hnext, -⟩ | ⟨f, -, hst, -⟩ | ⟨-, hnext, -⟩
        · rw [hnext] at hopen
          rcases List.mem_cons.mp hopen with hnew | hopen
          · exact Or.inr (Or.inl (by rw [hf, hnew]))
          · exact Or.inl hopen
        · rw [hst]
          exact Or.inl (List.mem_cons_of_mem _ hopen)
        · rw [hnext] at hopen
          exact Or.inl hopen
      · exact Or.inr (Or.inr hopen)

/-- **No block is closed twice**, when the open blocks and those that are opened differ. -/
theorem nodup_pairings (h : (st.reverse ++ openings rs).Nodup) :
    ((pairings options st rs).map (·.1)).Nodup := by
  induction rs generalizing st with
  | nil => exact List.nodup_nil
  | cons r rs ih =>
    rw [openings_cons] at h
    rw [pairings, List.map_append]
    rcases step_cases options st r with ⟨f, hf, hnext, hnone⟩ | ⟨f, hf, hst, hsome⟩ |
      ⟨hf, hnext, hnone⟩
    · rw [hnone, hnext]
      rw [hf, Option.toList_some, List.singleton_append] at h
      exact ih (by rwa [List.reverse_cons, List.append_assoc, List.singleton_append])
    · rw [hsome, Option.toList_some, List.map_singleton, List.singleton_append, List.nodup_cons]
      rw [hf, Option.toList_none, List.nil_append] at h
      generalize (regionCauses options r st).1 = next at hst ⊢
      rw [hst, List.reverse_cons, List.append_assoc, List.singleton_append,
        List.nodup_middle, List.nodup_cons] at h
      obtain ⟨hnew, hrest⟩ := h
      refine ⟨fun hmem => hnew ?_, ih hrest⟩
      obtain ⟨p, hp, rfl⟩ := List.mem_map.mp hmem
      rw [List.mem_append, List.mem_reverse]
      exact (mem_of_mem_pairings hp).2
    · rw [hnone, hnext]
      rw [hf] at h
      exact ih h

end Run

/-! ### What a run does to the stack -/

/-- A run that takes `gone` off the stack, leaves `old`, and puts `new` on it. -/
structure Cut (options : LintOptions) (st : List Frame) (rs : List Region)
    (new gone old : List Frame) : Prop where
  before : st = gone ++ old
  after : (run options st rs).1 = new ++ old
  opened : new.reverse.Sublist (openings rs)
  closed : ∀ f ∈ gone, ∃ r, (f, r) ∈ pairings options st rs
  taken : ∀ p ∈ pairings options st rs, p.1 ∈ gone ∨ p.1 ∈ openings rs

namespace Cut

variable {options : LintOptions} {st new gone old : List Frame} {r : Region} {rs : List Region}
  {f : Frame}

theorem closed_cons (h : Cut options (regionCauses options r st).1 rs new gone old) :
    ∀ g ∈ gone, ∃ s, (g, s) ∈ pairings options st (r :: rs) := by
  intro g hg
  obtain ⟨s, hs⟩ := h.closed g hg
  exact ⟨s, mem_pairings_cons.mpr (Or.inr hs)⟩

theorem taken_cons (h : Cut options (regionCauses options r st).1 rs new gone old) :
    ∀ p ∈ pairings options st (r :: rs),
      closing? st r = some p ∨ p.1 ∈ gone ∨ p.1 ∈ openings (r :: rs) := by
  intro p hp
  rw [openings_cons]
  exact (mem_pairings_cons.mp hp).imp_right fun hp =>
    (h.taken p hp).imp_right (List.mem_append_right _)

theorem opened_cons (h : Cut options (regionCauses options r st).1 rs new gone old) :
    new.reverse.Sublist (openings (r :: rs)) := by
  rw [openings_cons]
  exact h.opened.trans (List.sublist_append_right _ _)

theorem opens (h : Cut options (regionCauses options r st).1 rs new gone old)
    (hf : opening? r = some f) (hnext : (regionCauses options r st).1 = f :: st)
    (hnone : closing? st r = none) :
    ∃ new gone old, Cut options st (r :: rs) new gone old := by
  have hbefore := hnext.symm.trans h.before
  have htaken : ∀ p ∈ pairings options st (r :: rs), p.1 ∈ gone ∨ p.1 ∈ openings (r :: rs) :=
    fun p hp => (h.taken_cons p hp).resolve_left (by simp [hnone])
  have hnew : openings (r :: rs) = f :: openings rs := by
    rw [openings_cons, hf, Option.toList_some, List.singleton_append]
  cases gone with
  | nil =>
    refine ⟨new ++ [f], [], st, rfl, ?_, ?_, by simp, htaken⟩
    · show (run options (regionCauses options r st).1 rs).1 = _
      rw [h.after, List.append_assoc, List.singleton_append, hbefore, List.nil_append]
    · rw [hnew, List.reverse_append]
      exact h.opened.cons_cons f
  | cons g gone =>
    obtain ⟨hg, hst⟩ := List.cons.inj hbefore
    refine ⟨new, gone, old, hst, h.after, h.opened_cons,
      fun e he => h.closed_cons e (List.mem_cons_of_mem _ he), fun p hp => ?_⟩
    rcases htaken p hp with hgone | hopen
    · refine (List.mem_cons.mp hgone).elim (fun heq => Or.inr ?_) Or.inl
      rw [heq, ← hg, hnew]
      exact List.mem_cons_self
    · exact Or.inr hopen

theorem takes (h : Cut options (regionCauses options r st).1 rs new gone old)
    (hst : st = f :: (regionCauses options r st).1) (hsome : closing? st r = some (f, r)) :
    Cut options st (r :: rs) new (f :: gone) old where
  before := hst.trans (congrArg (f :: ·) h.before)
  after := h.after
  opened := h.opened_cons
  closed := List.forall_mem_cons.mpr
    ⟨⟨r, mem_pairings_cons.mpr (Or.inl hsome)⟩, h.closed_cons⟩
  taken p hp := by
    rcases h.taken_cons p hp with hnow | hgone | hopen
    · obtain rfl := Option.some.inj (hsome.symm.trans hnow)
      exact Or.inl List.mem_cons_self
    · exact Or.inl (List.mem_cons_of_mem _ hgone)
    · exact Or.inr hopen

theorem keeps (h : Cut options (regionCauses options r st).1 rs new gone old)
    (hnext : (regionCauses options r st).1 = st) (hnone : closing? st r = none) :
    Cut options st (r :: rs) new gone old where
  before := hnext.symm.trans h.before
  after := h.after
  opened := h.opened_cons
  closed := h.closed_cons
  taken p hp := (h.taken_cons p hp).resolve_left (by simp [hnone])

end Cut

/-- **What a run does to the stack.** -/
theorem exists_cut (options : LintOptions) (st : List Frame) (rs : List Region) :
    ∃ new gone old, Cut options st rs new gone old := by
  induction rs generalizing st with
  | nil =>
    exact ⟨[], [], st, rfl, rfl, List.Sublist.refl _, by simp, by simp [pairings]⟩
  | cons r rs ih =>
    obtain ⟨new, gone, old, hcut⟩ := ih (regionCauses options r st).1
    rcases step_cases options st r with ⟨f, hf, hnext, hnone⟩ | ⟨f, -, hst, hsome⟩ |
      ⟨-, hnext, hnone⟩
    · exact hcut.opens hf hnext hnone
    · exact ⟨new, f :: gone, old, hcut.takes hst hsome⟩
    · exact ⟨new, gone, old, hcut.keeps hnext hnone⟩

theorem mem_run_or_mem_pairings (options : LintOptions) {st : List Frame} {f : Frame}
    (h : f ∈ st) (rs : List Region) :
    f ∈ (run options st rs).1 ∨ ∃ r, (f, r) ∈ pairings options st rs := by
  obtain ⟨new, gone, old, hcut⟩ := exists_cut options st rs
  rw [hcut.before] at h
  rcases List.mem_append.mp h with hgone | hold
  · exact Or.inr (hcut.closed f hgone)
  · rw [hcut.after]
    exact Or.inl (List.mem_append_right _ hold)

/-! ### Runs that nest -/

/-- A run that finds nothing wrong with the nesting of blocks. -/
def Nested (options : LintOptions) (st : List Frame) (rs : List Region) : Prop :=
  structural ((run options st rs).2.map (·.cause)) = []

section Nested

variable {options : LintOptions} {st : List Frame} {rs : List Region}

theorem Nested.step {r : Region} (h : Nested options st (r :: rs)) :
    Nests r st (regionCauses options r st).1 [] ∧
      Nested options (regionCauses options r st).1 rs := by
  unfold Nested at h
  rw [structural_run_cons, List.append_eq_nil_iff] at h
  have hstep := nests_regionCauses options r st
  rw [h.1] at hstep
  exact ⟨hstep, h.2⟩

/-- What is read after the first regions is read with the blocks that they leave open. -/
theorem Nested.append {ss : List Region} (h : Nested options st (rs ++ ss)) :
    Nested options st rs ∧ Nested options (run options st rs).1 ss := by
  unfold Nested at h ⊢
  induction rs generalizing st with
  | nil => exact ⟨rfl, h⟩
  | cons r rs ih =>
    rw [List.cons_append, structural_run_cons, List.append_eq_nil_iff] at h
    obtain ⟨hfront, hback⟩ := ih h.2
    refine ⟨?_, hback⟩
    rw [structural_run_cons, h.1, hfront, List.append_nil]

/-- **A report without structural findings** is one on a run that nests and leaves nothing
open. -/
theorem nested_of_analyze {cs : List Char}
    (h : ∀ f ∈ (analyze options cs).findings, f.cause.category ≠ .structural) :
    Nested options [] (Region.ofLines cs).flatten ∧
      (run options [] (Region.ofLines cs).flatten).1 = [] := by
  have hfound : ∀ f ∈ (run options [] (Region.ofLines cs).flatten).2 ++
      (run options [] (Region.ofLines cs).flatten).1.reverse.flatMap Frame.leftover,
        f.cause.category ≠ .structural :=
    fun f hf => h f (List.mem_mergeSort.mpr hf)
  obtain ⟨hnested, hempty⟩ := (forall_ne_structural_iff _ _).mp hfound
  exact ⟨hnested, List.reverse_eq_nil_iff.mp hempty⟩

end Nested

/-! ### The open blocks of a tag -/

/-- The open blocks of a tag, the innermost first. -/
def openOf (tag : Block) (st : List Frame) : List Frame :=
  st.filter (·.block = tag)

theorem openOf_cons (tag : Block) (f : Frame) (st : List Frame) :
    openOf tag (f :: st) = if f.block = tag then f :: openOf tag st else openOf tag st := by
  rw [openOf, List.filter_cons]
  simp only [decide_eq_true_eq]
  rfl

theorem openOf_append (tag : Block) (st ts : List Frame) :
    openOf tag (st ++ ts) = openOf tag st ++ openOf tag ts :=
  List.filter_append ..

theorem mem_openOf {tag : Block} {st : List Frame} {f : Frame} :
    f ∈ openOf tag st ↔ f ∈ st ∧ f.block = tag := by
  rw [openOf, List.mem_filter, decide_eq_true_eq]

end TwigTemplate.Analysis
