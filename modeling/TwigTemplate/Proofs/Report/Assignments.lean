import TwigTemplate.Proofs.Report.Appending

/-!
# Assignments without a value

An assignment without `=` opens a block that is to be closed by its own closing statement.  Every
closing statement takes the innermost block off the stack, whatever it closes.  So such a block is
taken off by its own closing statement, or by another one, or it is left on the stack; only then,
and for `set` without arguments, the assignment itself is reported.

* `perm_pairings`: **every block is closed once or left open**.
* `ClosedBy`: a closing statement of a tag takes a block off.
* `invalidSet_mem_findings_iff`: **what is reported as an assignment that is not valid**.
* `invalidSet_reported_iff`: when a block assignment without its closing statement is reported.
-/

namespace TwigTemplate.Analysis

open Nesting (Event)

/-! ### Blocks that are closed or left -/

/-- **Every block that is open or opened is closed once or left open.** -/
theorem perm_pairings (options : LintOptions) (st : List Frame) (rs : List Region) :
    ((pairings options st rs).map (·.1) ++ (run options st rs).1).Perm (st ++ openings rs) := by
  induction rs generalizing st with
  | nil => exact .of_eq (List.append_nil st).symm
  | cons r rs ih =>
    have hnext := ih (regionCauses options r st).1
    rw [pairings, run_cons, openings_cons, List.map_append]
    rcases step_cases options st r with ⟨f, hf, hopen, hnone⟩ | ⟨f, hf, hst, hsome⟩ |
      ⟨hf, hkeep, hnone⟩
    · rw [hnone, hf]
      rw [hopen] at hnext ⊢
      exact hnext.trans List.perm_middle.symm
    · rw [hsome, hf]
      generalize (regionCauses options r st).1 = next at hst hnext ⊢
      rw [hst]
      exact hnext.cons f
    · rw [hnone, hf]
      rw [hkeep] at hnext ⊢
      exact hnext

theorem opening?_eq_some_iff {r : Region} {f : Frame} :
    opening? r = some f ↔ ∃ b, Event.ofRegion? r = some (.opens b) ∧ f = .ofRegion b r := by
  rw [opening?, Option.bind_eq_some_iff]
  constructor
  · rintro ⟨e, he, hframe⟩
    obtain ⟨b, hb, rfl⟩ := Option.map_eq_some_iff.mp hframe
    cases e with
    | opens b' =>
      obtain rfl := Option.some.inj hb
      exact ⟨_, he, rfl⟩
    | closes b' => exact absurd hb (by simp [Event.opened?])
    | branch => exact absurd hb (by simp [Event.opened?])
  · rintro ⟨b, he, rfl⟩
    exact ⟨_, he, rfl⟩

theorem closes_of_mem_pairings {options : LintOptions} {st : List Frame} {rs : List Region}
    {p : Frame × Region} (h : p ∈ pairings options st rs) :
    ∃ tag, Event.ofRegion? p.2 = some (.closes tag) := by
  induction rs generalizing st with
  | nil => exact absurd h List.not_mem_nil
  | cons r rs ih =>
    rcases mem_pairings_cons.mp h with hnow | hlater
    · unfold closing? at hnow
      split at hnow
      · next tag _ _ he =>
        obtain rfl := Option.some.inj hnow
        exact ⟨tag, he⟩
      · exact absurd hnow (by simp)
    · exact ih hlater

section Document

variable (options : LintOptions) (cs : List Char)

/-- A closing statement of the tag takes the block off the stack. -/
def ClosedBy (f : Frame) (tag : Block) : Prop :=
  ∃ s, (f, s) ∈ pairings options [] (Region.ofLines cs).flatten ∧
    Event.ofRegion? s = some (.closes tag)

variable {options cs}

/-- **A block that is opened is left open when no statement closes it.** -/
theorem mem_stack_iff {r : Region} {b : Block} (hr : r ∈ (Region.ofLines cs).flatten)
    (he : Event.ofRegion? r = some (.opens b)) :
    Frame.ofRegion b r ∈ (run options [] (Region.ofLines cs).flatten).1 ↔
      ∀ tag, ¬ ClosedBy options cs (.ofRegion b r) tag := by
  have hperm := perm_pairings options [] (Region.ofLines cs).flatten
  rw [List.nil_append] at hperm
  have hnodup := hperm.nodup_iff.mpr (List.Nodup.of_map _ (nodup_openings cs))
  have hopen : Frame.ofRegion b r ∈ openings (Region.ofLines cs).flatten :=
    List.mem_filterMap.mpr ⟨r, hr, opening?_eq_some_iff.mpr ⟨b, he, rfl⟩⟩
  constructor
  · rintro hleft tag ⟨s, hs, -⟩
    exact (List.nodup_append.mp hnodup).2.2 _ (List.mem_map_of_mem hs) _ hleft rfl
  · intro hnone
    rcases List.mem_append.mp (hperm.mem_iff.mpr hopen) with hclosed | hleft
    · obtain ⟨⟨f, s⟩, hs, hf⟩ := List.mem_map.mp hclosed
      obtain ⟨tag, htag⟩ := closes_of_mem_pairings hs
      dsimp only at hf
      exact absurd ⟨s, hf ▸ hs, htag⟩ (hnone tag)
    · exact hleft

/-- A block is taken off by one statement only. -/
theorem ClosedBy.unique {f : Frame} {tag tag' : Block} (h : ClosedBy options cs f tag)
    (h' : ClosedBy options cs f tag') : tag = tag' := by
  obtain ⟨s, hs, he⟩ := h
  obtain ⟨s', hs', he'⟩ := h'
  have hnodup : ((pairings options [] (Region.ofLines cs).flatten).map (·.1)).Nodup :=
    nodup_pairings (List.Nodup.of_map _ (nodup_openings cs))
  obtain rfl := (Prod.mk.inj (List.inj_on_of_nodup_map hnodup hs hs' rfl)).2
  simpa using he.symm.trans he'

end Document

/-! ### Regions that are reported -/

/-- The statement `set` without arguments. -/
structure BareSet (r : Region) : Prop where
  kind : r.kind = .template .statement
  keyword : (Statement.ofContent r.content).keyword = "set".toList
  args : (Statement.ofContent r.content).args = []

theorem invalidSet_mem_argumentCauses_iff {s : Statement} {content : List Char} :
    .invalidSet ∈ argumentCauses s content ↔ s.keyword = "set".toList ∧ s.args = [] := by
  rw [argumentCauses, Statement.isClosing]
  by_cases hkeyword : s.keyword = "set".toList
  · have hopening : ¬ Text.startsWith Statement.endMark "set".toList = true := by decide
    have hloop : ¬ "set".toList = "for".toList := by decide
    rw [hkeyword, if_neg hopening, if_neg hloop, if_pos rfl]
    by_cases hargs : s.args = []
    · simp [hargs]
    · simp [hargs]
  · simp only [hkeyword, false_and, iff_false, if_false]
    split_ifs <;> simp

theorem invalidSet_not_mem_operatorCauses (options : LintOptions) (content : List Char) :
    .invalidSet ∉ operatorCauses options content := by
  rw [operatorCauses]
  split
  · simp
  · exact List.not_mem_nil

theorem invalidSet_not_mem_outputCauses (options : LintOptions) (content : List Char) :
    .invalidSet ∉ outputCauses options content := by
  rw [outputCauses]
  split_ifs
  · simp
  · exact List.not_mem_nil
  · rw [List.mem_append, not_or]
    refine ⟨fun hmem => ?_, invalidSet_not_mem_operatorCauses options content⟩
    obtain ⟨call, -, hcall⟩ := List.mem_filterMap.mp hmem
    rw [filterCause?] at hcall
    split_ifs at hcall
    · exact absurd hcall (by simp)
    · exact absurd hcall (by simp)

theorem invalidSet_not_mem_nest (r : Region) (role : Role) (name : List Char) (st : List Frame) :
    .invalidSet ∉ (nest r role name st).2 := by
  cases role with
  | closes b =>
    cases st with
    | nil => simp [nest]
    | cons f st =>
      rw [nest]
      dsimp only
      split <;> simp
  | _ => simp [nest]

/-- **A region is reported as an assignment that is not valid** when it is `set` without
arguments. -/
theorem invalidSet_mem_regionCauses_iff {options : LintOptions} {r : Region} {st : List Frame} :
    .invalidSet ∈ (regionCauses options r st).2 ↔ BareSet r := by
  have hbare : BareSet r → r.kind = .template .statement := BareSet.kind
  rw [regionCauses]
  split
  · next h => exact iff_of_false List.not_mem_nil fun hb => by simpa [h] using hbare hb
  · next h => exact iff_of_false List.not_mem_nil fun hb => by simpa [h] using hbare hb
  · next h =>
    exact iff_of_false (invalidSet_not_mem_outputCauses options _) fun hb => by
      simpa [h] using hbare hb
  · next h =>
    rw [statementCauses]
    split
    · next hempty =>
      refine iff_of_false (by simp) fun hb => ?_
      have hkeyword := hb.keyword
      rw [List.isEmpty_iff.mp hempty] at hkeyword
      exact absurd hkeyword (by decide)
    · simp only [List.mem_append, invalidSet_not_mem_nest, invalidSet_not_mem_operatorCauses,
        invalidSet_mem_argumentCauses_iff, false_or, or_false]
      exact ⟨fun hset => ⟨h, hset.1, hset.2⟩, fun hb => ⟨hb.keyword, hb.args⟩⟩
  · next h => exact iff_of_false (by simp) fun hb => by simpa [h] using hbare hb
  · next h => exact iff_of_false (by simp) fun hb => by simpa [h] using hbare hb
  · next h => exact iff_of_false (by simp) fun hb => by simpa [h] using hbare hb

theorem not_bareSet_of_opens {r : Region} {b : Block}
    (h : Event.ofRegion? r = some (.opens b)) : ¬ BareSet r := by
  intro hbare
  have hrole : (Statement.ofContent r.content).role = .inline := by
    have hopening : Text.after? Statement.endMark "set".toList = none := by decide
    rw [Statement.role, hbare.keyword, hopening, hbare.args]
    decide
  rw [Event.ofRegion?, if_pos hbare.kind, hrole] at h
  exact absurd h (by simp [Event.ofRole?])

/-! ### The report -/

theorem invalidSet_mem_leftover_iff {f : Frame} {line column : Nat} :
    ⟨line, column, .invalidSet⟩ ∈ f.leftover ↔ f = ⟨.assignment, line, column⟩ := by
  obtain ⟨tag, line', column'⟩ := f
  rw [Frame.leftover]
  by_cases htag : tag = .assignment
  · simp [htag, eq_comm]
  · simp [htag]

section Report

variable {options : LintOptions} {cs : List Char}

/-- **What is reported as an assignment that is not valid**: `set` without arguments, and a block
assignment that is left open. -/
theorem invalidSet_mem_findings_iff {line column : Nat} :
    ⟨line, column, .invalidSet⟩ ∈ (analyze options cs).findings ↔
      (∃ r ∈ (Region.ofLines cs).flatten, BareSet r ∧ line = r.line ∧ column = r.column) ∨
        (⟨.assignment, line, column⟩ : Frame) ∈
          (run options [] (Region.ofLines cs).flatten).1 := by
  rw [mem_findings_iff]
  refine or_congr ⟨fun hfound => ?_, ?_⟩ ?_
  · obtain ⟨r, hr, st, hline, hcolumn, hcause⟩ := exists_region_of_mem_run _ hfound
    exact ⟨r, hr, invalidSet_mem_regionCauses_iff.mp hcause, hline, hcolumn⟩
  · rintro ⟨r, hr, hbare, rfl, rfl⟩
    obtain ⟨st, hst⟩ := @exists_finding_of_mem_run options _ _ hr []
    exact hst _ (invalidSet_mem_regionCauses_iff.mpr hbare)
  · simp only [invalidSet_mem_leftover_iff, exists_eq_right]

theorem invalidSet_mem_iff_of_opens {r : Region} (hr : r ∈ (Region.ofLines cs).flatten)
    (he : Event.ofRegion? r = some (.opens .assignment)) :
    ⟨r.line, r.column, .invalidSet⟩ ∈ (analyze options cs).findings ↔
      ∀ tag, ¬ ClosedBy options cs (.ofRegion .assignment r) tag := by
  rw [invalidSet_mem_findings_iff, ← mem_stack_iff hr he]
  refine or_iff_right ?_
  rintro ⟨s, hs, hbare, hline, hcolumn⟩
  obtain rfl := List.inj_on_of_nodup_map (nodup_places cs) hr hs (Prod.ext hline hcolumn)
  exact not_bareSet_of_opens he hbare

theorem exists_region_of_mem_stack {f : Frame}
    (h : f ∈ (run options [] (Region.ofLines cs).flatten).1) :
    ∃ r ∈ (Region.ofLines cs).flatten, Event.ofRegion? r = some (.opens f.block) ∧
      f = .ofRegion f.block r := by
  have hopen : f ∈ openings (Region.ofLines cs).flatten :=
    (perm_pairings options [] _).mem_iff.mp (List.mem_append_right _ h)
  obtain ⟨r, hr, hframe⟩ := List.mem_filterMap.mp hopen
  obtain ⟨b, he, rfl⟩ := opening?_eq_some_iff.mp hframe
  exact ⟨r, hr, he, rfl⟩

end Report

/-- **When a block assignment without its closing statement is reported**: exactly when no other
closing statement takes it off the stack either.  Nothing else is reported in this way, but for
`set` without arguments. -/
theorem invalidSet_reported_iff (options : LintOptions) (cs : List Char) :
    (∀ r ∈ (Region.ofLines cs).flatten, Event.ofRegion? r = some (.opens .assignment) →
      (⟨r.line, r.column, .invalidSet⟩ ∈ (analyze options cs).findings ↔
        ∀ tag, ¬ ClosedBy options cs (.ofRegion .assignment r) tag) ∧
      ((¬ ClosedBy options cs (.ofRegion .assignment r) .assignment →
          ⟨r.line, r.column, .invalidSet⟩ ∈ (analyze options cs).findings) ↔
        ∀ tag, ClosedBy options cs (.ofRegion .assignment r) tag → tag = .assignment)) ∧
    ∀ f ∈ (analyze options cs).findings, f.cause = .invalidSet →
      ∃ r ∈ (Region.ofLines cs).flatten, f.line = r.line ∧ f.column = r.column ∧
        (BareSet r ∨ Event.ofRegion? r = some (.opens .assignment) ∧
          ∀ tag, ¬ ClosedBy options cs (.ofRegion .assignment r) tag) := by
  refine ⟨fun r hr he => ⟨invalidSet_mem_iff_of_opens hr he, ?_⟩, ?_⟩
  · rw [invalidSet_mem_iff_of_opens hr he]
    constructor
    · intro h tag hclosed
      by_cases hown : ClosedBy options cs (.ofRegion .assignment r) .assignment
      · exact hclosed.unique hown
      · exact absurd hclosed (h hown tag)
    · intro honly hopen tag hclosed
      exact hopen (honly tag hclosed ▸ hclosed)
  · rintro ⟨line, column, cause⟩ hf rfl
    rcases invalidSet_mem_findings_iff.mp hf with ⟨r, hr, hbare, hline, hcolumn⟩ | hleft
    · exact ⟨r, hr, hline, hcolumn, Or.inl hbare⟩
    · obtain ⟨r, hr, he, hframe⟩ := exists_region_of_mem_stack hleft
      refine ⟨r, hr, congrArg Frame.line hframe, congrArg Frame.column hframe,
        Or.inr ⟨he, (mem_stack_iff hr he).mp ?_⟩⟩
      rwa [← hframe]

/-- An outer assignment is reported when the inner one takes the only closing statement. -/
theorem invalidSet_reported_outer :
    (⟨.template .statement, ⟨1, 1, 0⟩, ⟨1, 12, 11⟩, "{% set x %}".toList⟩ : Region) ∈
        (Region.ofLines "{% set x %}\n{% set y %}\n{% endset %}".toList).flatten ∧
      Event.ofRegion? ⟨.template .statement, ⟨1, 1, 0⟩, ⟨1, 12, 11⟩, "{% set x %}".toList⟩ =
        some (.opens .assignment) ∧
      (∀ tag, ¬ ClosedBy .standard "{% set x %}\n{% set y %}\n{% endset %}".toList
        ⟨.assignment, 1, 1⟩ tag) ∧
      ⟨1, 1, .invalidSet⟩ ∈
        (analyze .standard "{% set x %}\n{% set y %}\n{% endset %}".toList).findings := by
  have hr : (⟨.template .statement, ⟨1, 1, 0⟩, ⟨1, 12, 11⟩, "{% set x %}".toList⟩ : Region) ∈
      (Region.ofLines "{% set x %}\n{% set y %}\n{% endset %}".toList).flatten := by
    decide +kernel
  have he : Event.ofRegion? ⟨.template .statement, ⟨1, 1, 0⟩, ⟨1, 12, 11⟩,
      "{% set x %}".toList⟩ = some (.opens .assignment) := by decide +kernel
  have hpairings : (pairings .standard []
      (Region.ofLines "{% set x %}\n{% set y %}\n{% endset %}".toList).flatten).map (·.1) =
        [⟨.assignment, 2, 1⟩] := by decide +kernel
  have hopen : ∀ tag, ¬ ClosedBy .standard "{% set x %}\n{% set y %}\n{% endset %}".toList
      ⟨.assignment, 1, 1⟩ tag := by
    rintro tag ⟨s, hs, -⟩
    have hmem : (⟨.assignment, 1, 1⟩ : Frame) ∈ [⟨.assignment, 2, 1⟩] :=
      hpairings ▸ List.mem_map_of_mem hs
    exact absurd hmem (by decide)
  exact ⟨hr, he, hopen, ((invalidSet_reported_iff .standard _).1 _ hr he).1.mpr hopen⟩

/-- A closing statement of another tag takes an assignment off the stack, and nothing says that the
assignment has no value. -/
theorem invalidSet_missing_mismatched :
    (⟨.template .statement, ⟨1, 1, 0⟩, ⟨1, 12, 11⟩, "{% set x %}".toList⟩ : Region) ∈
        (Region.ofLines "{% set x %}\n{% endif %}".toList).flatten ∧
      Event.ofRegion? ⟨.template .statement, ⟨1, 1, 0⟩, ⟨1, 12, 11⟩, "{% set x %}".toList⟩ =
        some (.opens .assignment) ∧
      ¬ ClosedBy .standard "{% set x %}\n{% endif %}".toList ⟨.assignment, 1, 1⟩ .assignment ∧
      (analyze .standard "{% set x %}\n{% endif %}".toList).findings =
        [⟨2, 1, .mismatchedCloser .assignment .conditional⟩] := by
  have hpairings : pairings .standard []
      (Region.ofLines "{% set x %}\n{% endif %}".toList).flatten =
        [(⟨.assignment, 1, 1⟩, ⟨.template .statement, ⟨2, 1, 0⟩, ⟨2, 12, 11⟩,
          "{% endif %}".toList⟩)] := by decide +kernel
  refine ⟨by decide +kernel, by decide +kernel, ?_, by decide +kernel⟩
  rintro ⟨s, hs, he⟩
  rw [hpairings] at hs
  obtain ⟨-, rfl⟩ := Prod.mk.inj (List.mem_singleton.mp hs)
  exact absurd he (by decide +kernel)

end TwigTemplate.Analysis
