import Mathlib.Data.List.Forall2
import TwigTemplate.Report.Analysis

/-!
# What an analysis depends on

An analysis reads what regions say and the order in which their lines stand.  Two
lists of regions that say the same, on lines in the same order, are given the same
causes, in the same order.

* `Same`, `SameFinding`: regions and findings that agree but for their places.
* `run_same`: agreeing regions are read alike.
* `causes_ofFindings`: sorting by line keeps the agreement.
* `causes_same`: **agreeing regions are given the same causes**.
-/

namespace TwigTemplate.Analysis

open List (Forall₂)

/-- Lines correspond in order. -/
def InOrder (R : Nat → Nat → Prop) : Prop :=
  ∀ i j k l, R i j → R k l → (i ≤ k ↔ j ≤ l)

/-- Two regions that say the same, on lines that correspond. -/
structure Same (R : Nat → Nat → Prop) (r s : Region) : Prop where
  kind : r.kind = s.kind
  content : r.content = s.content
  line : R r.line s.line

structure SameFrame (R : Nat → Nat → Prop) (f g : Frame) : Prop where
  block : f.block = g.block
  line : R f.line g.line

structure SameFinding (R : Nat → Nat → Prop) (f g : Finding) : Prop where
  cause : f.cause = g.cause
  line : R f.line g.line

variable {R : Nat → Nat → Prop} {options : LintOptions}

/-! ### Reading regions -/

theorem nest_same {r s : Region} (h : Same R r s) (role : Role) (name : List Char)
    {st st' : List Frame} (hst : Forall₂ (SameFrame R) st st') :
    Forall₂ (SameFrame R) (nest r role name st).1 (nest s role name st').1 ∧
      (nest r role name st).2 = (nest s role name st').2 := by
  cases role with
  | unknown => exact ⟨hst, rfl⟩
  | opens b => exact ⟨.cons ⟨rfl, h.line⟩ hst, rfl⟩
  | closes b =>
    cases hst with
    | nil => exact ⟨.nil, rfl⟩
    | cons hframe hrest =>
      refine ⟨hrest, ?_⟩
      simp only [nest, hframe.block]
  | branch => exact ⟨hst, rfl⟩
  | inline => exact ⟨hst, rfl⟩

theorem regionCauses_same (options : LintOptions) {r s : Region} (h : Same R r s)
    {st st' : List Frame} (hst : Forall₂ (SameFrame R) st st') :
    Forall₂ (SameFrame R) (regionCauses options r st).1 (regionCauses options s st').1 ∧
      (regionCauses options r st).2 = (regionCauses options s st').2 := by
  have hkind := h.kind
  rw [regionCauses, regionCauses, ← hkind]
  split
  · exact ⟨hst, rfl⟩
  · exact ⟨hst, rfl⟩
  · exact ⟨hst, by rw [h.content]⟩
  · rw [statementCauses, statementCauses, ← h.content]
    split
    · exact ⟨hst, rfl⟩
    · obtain ⟨hnext, hcauses⟩ := nest_same h (Statement.ofContent r.content).role
        (Statement.ofContent r.content).reportedName hst
      refine ⟨hnext, ?_⟩
      simp only [hcauses]
  · exact ⟨hst, rfl⟩
  · exact ⟨hst, rfl⟩
  · exact ⟨hst, rfl⟩

theorem run_cons (st : List Frame) (r : Region) (rs : List Region) :
    run options st (r :: rs) =
      ((run options (regionCauses options r st).1 rs).1,
        (regionCauses options r st).2.map (⟨r.line, r.column, ·⟩) ++
          (run options (regionCauses options r st).1 rs).2) := rfl

/-- **Agreeing regions are read alike**, whatever agreeing blocks are open. -/
theorem run_same (options : LintOptions) {rs ss : List Region} (h : Forall₂ (Same R) rs ss)
    {st st' : List Frame} (hst : Forall₂ (SameFrame R) st st') :
    Forall₂ (SameFrame R) (run options st rs).1 (run options st' ss).1 ∧
      Forall₂ (SameFinding R) (run options st rs).2 (run options st' ss).2 := by
  induction h generalizing st st' with
  | nil => exact ⟨hst, .nil⟩
  | @cons r s rs ss hrs _ ih =>
    obtain ⟨hnext, hcauses⟩ := regionCauses_same options hrs hst
    obtain ⟨hlast, hfound⟩ := ih hnext
    rw [run_cons, run_cons]
    refine ⟨hlast, List.rel_append ?_ hfound⟩
    rw [hcauses, List.forall₂_map_left_iff, List.forall₂_map_right_iff, List.forall₂_same]
    exact fun _ _ => ⟨rfl, hrs.line⟩

theorem leftover_same {f g : Frame} (h : SameFrame R f g) :
    Forall₂ (SameFinding R) f.leftover g.leftover := by
  rw [Frame.leftover, Frame.leftover, h.block]
  refine List.rel_append ?_ (.cons ⟨rfl, h.line⟩ .nil)
  split
  · exact .cons ⟨rfl, h.line⟩ .nil
  · exact .nil

/-! ### Sorting findings -/

/-- The order that a report is sorted by. -/
def byLine (f g : Finding) : Bool :=
  f.line ≤ g.line

/-- **Sorting by line keeps the agreement.** -/
theorem causes_ofFindings (hR : InOrder R) {fs gs : List Finding}
    (h : Forall₂ (SameFinding R) fs gs) :
    (Report.ofFindings fs).findings.map (·.cause) =
      (Report.ofFindings gs).findings.map (·.cause) := by
  obtain ⟨hlen, hzip⟩ := List.forall₂_iff_zip.mp h
  -- Both lists are sorted as one list of pairs.
  have hfs : (fs.zip gs).map Prod.fst = fs := List.map_fst_zip (Nat.le_of_eq hlen)
  have hgs : (fs.zip gs).map Prod.snd = gs := List.map_snd_zip (Nat.le_of_eq hlen.symm)
  have horder : ∀ a ∈ fs.zip gs, ∀ b ∈ fs.zip gs, byLine a.1 b.1 = byLine a.2 b.2 := by
    intro a ha b hb
    rw [byLine, byLine, decide_eq_decide]
    exact hR _ _ _ _ (hzip ha).line (hzip hb).line
  have hleft : ((fs.zip gs).mergeSort fun a b => byLine a.1 b.1).map Prod.fst =
      fs.mergeSort byLine := by
    rw [List.map_mergeSort (s := byLine) fun _ _ _ _ => rfl, hfs]
  have hright : ((fs.zip gs).mergeSort fun a b => byLine a.1 b.1).map Prod.snd =
      gs.mergeSort byLine := by
    rw [List.map_mergeSort (s := byLine) horder, hgs]
  show (fs.mergeSort byLine).map (·.cause) = (gs.mergeSort byLine).map (·.cause)
  rw [← hleft, ← hright, List.map_map, List.map_map]
  apply List.map_congr_left
  intro p hp
  exact (hzip (List.mem_mergeSort.mp hp)).cause

/-- **Agreeing regions are given the same causes in the same order.** -/
theorem causes_same (hR : InOrder R) {rs ss : List Region} (h : Forall₂ (Same R) rs ss) :
    (Report.ofFindings ((run options [] rs).2 ++
        (run options [] rs).1.reverse.flatMap Frame.leftover)).findings.map (·.cause) =
      (Report.ofFindings ((run options [] ss).2 ++
        (run options [] ss).1.reverse.flatMap Frame.leftover)).findings.map (·.cause) := by
  obtain ⟨hframes, hfound⟩ := run_same options h .nil
  apply causes_ofFindings hR
  refine List.rel_append hfound ?_
  exact List.rel_flatMap (List.rel_reverse hframes) fun _ _ => leftover_same

/-! ### Regions that matter -/

/-- The regions of terminated code. -/
def codeRegions (rs : List Region) : List Region :=
  rs.filter (·.kind.isTemplate)

theorem codeRegions_cons (r : Region) (rs : List Region) :
    codeRegions (r :: rs) = if r.kind.isTemplate then r :: codeRegions rs else codeRegions rs :=
  List.filter_cons

/-- **Plain text is passed over.** -/
theorem run_codeRegions {rs : List Region}
    (h : ∀ r ∈ rs, ∀ form : Form, r.kind ≠ .unterminated form) (st : List Frame) :
    run options st (codeRegions rs) = run options st rs := by
  induction rs generalizing st with
  | nil => rfl
  | cons r rs ih =>
    have hrest := ih fun s hs => h s (List.mem_cons_of_mem _ hs)
    rw [codeRegions_cons]
    cases hkind : r.kind with
    | text =>
      have hpass : regionCauses options r st = (st, []) := by rw [regionCauses, hkind]
      rw [if_neg (by simp [Region.Kind.isTemplate]), run_cons, hpass, hrest]
      rfl
    | template form =>
      rw [if_pos (by rfl), run_cons, hrest, run_cons]
    | unterminated form => exact absurd hkind (h r List.mem_cons_self form)

/-- What an opener that is never closed is reported for. -/
def unclosed : Form → Cause
  | .output => .unclosedOutput
  | .statement => .unclosedStatement
  | .comment => .unclosedComment

/-- **Every opener that is never closed is reported.** -/
theorem unclosed_mem_run (options : LintOptions) {rs : List Region} {r : Region} {form : Form}
    (hr : r ∈ rs) (hkind : r.kind = .unterminated form) (st : List Frame) :
    ∃ f ∈ (run options st rs).2, f.cause = unclosed form := by
  induction rs generalizing st with
  | nil => simp at hr
  | cons s rs ih =>
    rw [run_cons]
    rcases List.mem_cons.mp hr with rfl | hr
    · refine ⟨⟨r.line, r.column, unclosed form⟩, List.mem_append_left _ ?_, rfl⟩
      have hcauses : (regionCauses options r st).2 = [unclosed form] := by
        rw [regionCauses, hkind]
        cases form <;> rfl
      rw [hcauses]
      exact List.mem_singleton.mpr rfl
    · obtain ⟨f, hf, hcause⟩ := ih hr (regionCauses options s st).1
      exact ⟨f, List.mem_append_right _ hf, hcause⟩

theorem closed_of_analyze (options : LintOptions) {cs : List Char}
    (h : ∀ f ∈ (analyze options cs).findings, ∀ form : Form, f.cause ≠ unclosed form) :
    ∀ r ∈ (Region.ofLines cs).flatten, ∀ form : Form, r.kind ≠ .unterminated form := by
  intro r hr form hkind
  obtain ⟨f, hf, hcause⟩ := unclosed_mem_run options hr hkind []
  exact h f (List.mem_mergeSort.mpr (List.mem_append_left _ hf)) form hcause

end TwigTemplate.Analysis
