import TwigTemplate.Proofs.Ordered
import TwigTemplate.Proofs.Report.Causes

/-!
# Optional checks

The optional checks add findings to a report and change nothing else in it: a region does the same
to the open blocks whatever is checked, and a check that is left out leaves out its own causes.

* `LintOptions.reports`: the causes that are reported under some options.
* `regionCauses_eq`, `run_eq`: **a region and a run are given the causes that are reported**.
* `findings_analyze`: **a report is the full report with the findings that are reported**.
* `findings_switches`: what each switch takes out of a report, and what it leaves alone.
-/

namespace TwigTemplate

/-- The causes that are reported: those of a check that is left out are not. -/
def LintOptions.reports (options : LintOptions) : Cause → Bool
  | .operatorSpacing _ => options.operatorSpacing
  | .emptyOutput => options.emptyExpression
  | _ => true

namespace Cause

/-- The cause of a check that can be left out. -/
def isOptional : Cause → Bool
  | .operatorSpacing _ | .emptyOutput => true
  | _ => false

def isOperatorSpacing : Cause → Bool
  | .operatorSpacing _ => true
  | _ => false

/-- **Advice on style is advice on operators.** -/
theorem category_eq_style_iff (c : Cause) : c.category = .style ↔ c.isOperatorSpacing = true := by
  cases c <;> simp [category, isOperatorSpacing]

end Cause

namespace Analysis

variable {options : LintOptions}

theorem reports_of_mandatory (options : LintOptions) {c : Cause} (h : c.isOptional = false) :
    options.reports c = true := by
  cases c with
  | operatorSpacing _ => exact absurd h (by simp [Cause.isOptional])
  | emptyOutput => exact absurd h (by simp [Cause.isOptional])
  | _ => rfl

theorem filter_mandatory (options : LintOptions) {causes : List Cause}
    (h : ∀ c ∈ causes, c.isOptional = false) : causes.filter options.reports = causes :=
  List.filter_eq_self.mpr fun c hc => reports_of_mandatory options (h c hc)

/-! ### The checks that are always made -/

theorem mandatory_filterCause? {call : Literal.FilterCall} {c : Cause}
    (h : filterCause? call = some c) : c.isOptional = false := by
  rw [filterCause?] at h
  split_ifs at h
  · obtain rfl := Option.some.inj h
    rfl
  · obtain rfl := Option.some.inj h
    rfl

theorem mandatory_nest (r : Region) (role : Role) (name : List Char) (stack : List Frame) :
    ∀ c ∈ (nest r role name stack).2, c.isOptional = false := by
  cases role with
  | unknown => exact List.forall_mem_singleton.mpr rfl
  | opens b => exact fun c hc => absurd hc List.not_mem_nil
  | closes b =>
    cases stack with
    | nil => exact List.forall_mem_singleton.mpr rfl
    | cons frame rest =>
      rw [nest]
      split
      · exact fun c hc => absurd hc List.not_mem_nil
      · exact List.forall_mem_singleton.mpr rfl
  | branch => exact fun c hc => absurd hc List.not_mem_nil
  | inline => exact fun c hc => absurd hc List.not_mem_nil

theorem mandatory_argumentCauses (s : Statement) (content : List Char) :
    ∀ c ∈ argumentCauses s content, c.isOptional = false := by
  rw [argumentCauses]
  split_ifs <;> simp [Cause.isOptional]

theorem mandatory_leftover (f : Frame) : ∀ g ∈ f.leftover, g.cause.isOptional = false := by
  intro g hg
  rw [Frame.leftover] at hg
  split at hg
  · obtain rfl | rfl : g = _ ∨ g = _ := by simpa using hg
    · rfl
    · rfl
  · obtain rfl : g = _ := by simpa using hg
    rfl

/-! ### A region and a run -/

theorem operatorCauses_eq (options : LintOptions) (content : List Char) :
    operatorCauses options content = (operatorCauses .standard content).filter options.reports := by
  have hstandard : operatorCauses .standard content =
      (Operator.glued content).map .operatorSpacing := rfl
  rw [operatorCauses, hstandard]
  split
  · next hon =>
    symm
    rw [List.filter_eq_self, List.forall_mem_map]
    exact fun _ _ => hon
  · next hoff =>
    symm
    rw [List.filter_eq_nil_iff, List.forall_mem_map]
    exact fun _ _ => hoff

theorem outputCauses_eq (options : LintOptions) (content : List Char) :
    outputCauses options content = (outputCauses .standard content).filter options.reports := by
  rw [outputCauses, outputCauses]
  split
  · have hstandard : LintOptions.standard.emptyExpression = true := rfl
    rw [if_pos hstandard, List.filter_cons]
    rfl
  · have hcalls : ∀ c ∈ (Literal.filterCalls content).filterMap filterCause?,
        c.isOptional = false := fun c hc => by
      obtain ⟨call, -, hcall⟩ := List.mem_filterMap.mp hc
      exact mandatory_filterCause? hcall
    rw [List.filter_append, operatorCauses_eq, filter_mandatory options hcalls]

theorem statementCauses_eq (options : LintOptions) (r : Region) (content : List Char)
    (stack : List Frame) : statementCauses options r content stack =
      ((statementCauses .standard r content stack).1,
        (statementCauses .standard r content stack).2.filter options.reports) := by
  rw [statementCauses, statementCauses]
  split
  · rfl
  · have hnest := filter_mandatory options (mandatory_nest r (Statement.ofContent content).role
      (Statement.ofContent content).reportedName stack)
    have hargs := filter_mandatory options
      (mandatory_argumentCauses (Statement.ofContent content) content)
    simp only [List.filter_append, operatorCauses_eq options, hnest, hargs]

/-- **A region opens and closes the same blocks under all options**, and is given the causes that
are reported. -/
theorem regionCauses_eq (options : LintOptions) (r : Region) (stack : List Frame) :
    regionCauses options r stack = ((regionCauses .standard r stack).1,
      (regionCauses .standard r stack).2.filter options.reports) := by
  rw [regionCauses, regionCauses]
  split
  · rfl
  · rfl
  · rw [outputCauses_eq]
  · exact statementCauses_eq options r r.content stack
  · rfl
  · rfl
  · rfl

/-- **A run leaves the same blocks open under all options**, and makes the findings that are
reported. -/
theorem run_eq (options : LintOptions) (rs : List Region) (stack : List Frame) :
    run options stack rs = ((run .standard stack rs).1,
      (run .standard stack rs).2.filter fun f => options.reports f.cause) := by
  induction rs generalizing stack with
  | nil => rfl
  | cons r rs ih =>
    rw [run_cons, run_cons, regionCauses_eq, ih, List.filter_append, List.filter_map]
    rfl

/-! ### The report -/

section Report

variable (cs : List Char)

/-- **A report is the full report with the findings that are reported**, in the same order. -/
theorem findings_analyze (options : LintOptions) : (analyze options cs).findings =
    (analyze .standard cs).findings.filter fun f => options.reports f.cause := by
  have hleft : (run .standard [] (Region.ofLines cs).flatten).1.reverse.flatMap Frame.leftover =
      ((run .standard [] (Region.ofLines cs).flatten).1.reverse.flatMap Frame.leftover).filter
        fun f => options.reports f.cause := by
    refine (List.filter_eq_self.mpr fun f hf => ?_).symm
    obtain ⟨frame, -, hf⟩ := List.mem_flatMap.mp hf
    exact reports_of_mandatory options (mandatory_leftover frame f hf)
  show (Report.ofFindings ((run options [] _).2 ++ (run options [] _).1.reverse.flatMap
    Frame.leftover)).findings = _
  rw [run_eq, hleft, ← List.filter_append]
  exact (Ordered.filter_mergeSort Finding.line _ _).symm

/-- Between options where one reports no more than the other, a report is cut down. -/
theorem findings_of_reports (options more : LintOptions) (p : Cause → Bool)
    (h : ∀ c, options.reports c = (more.reports c && p c)) : (analyze options cs).findings =
      (analyze more cs).findings.filter fun f => p f.cause := by
  rw [findings_analyze, findings_analyze cs more, List.filter_filter]
  refine List.filter_congr fun f _ => ?_
  rw [h, Bool.and_comm]

/-- **What a switch does to a report.**  Without advice on operators a report lacks this advice and
nothing else, without empty outputs it lacks these, and the order stays.  So errors are counted
alike with and without advice on operators, and the findings that are no style are the same. -/
theorem findings_switches (options : LintOptions) :
    (analyze { options with operatorSpacing := false } cs).findings =
        (analyze { options with operatorSpacing := true } cs).findings.filter
          (fun f => !f.cause.isOperatorSpacing) ∧
      (analyze { options with emptyExpression := false } cs).findings =
        (analyze { options with emptyExpression := true } cs).findings.filter
          (fun f => f.cause ≠ .emptyOutput) ∧
      (analyze { options with operatorSpacing := false } cs).errorCount =
        (analyze { options with operatorSpacing := true } cs).errorCount ∧
      (analyze { options with operatorSpacing := false } cs).findings.filter
          (fun f => f.cause.category ≠ .style) =
        (analyze { options with operatorSpacing := true } cs).findings.filter
          (fun f => f.cause.category ≠ .style) := by
  have hspacing := findings_of_reports cs { options with operatorSpacing := false }
    { options with operatorSpacing := true } (fun c => !c.isOperatorSpacing)
    fun c => by cases c <;> simp [LintOptions.reports, Cause.isOperatorSpacing]
  have hempty := findings_of_reports cs { options with emptyExpression := false }
    { options with emptyExpression := true } (fun c => c ≠ .emptyOutput)
    fun c => by cases c <;> simp [LintOptions.reports]
  have hstyle : ∀ f : Finding, f.cause.category ≠ .style → (!f.cause.isOperatorSpacing) = true :=
    fun f hf => by
      rw [ne_eq, Cause.category_eq_style_iff] at hf
      simpa using hf
  refine ⟨hspacing, hempty, ?_, ?_⟩
  · rw [Report.errorCount, Report.errorCount, hspacing, List.countP_filter]
    refine List.countP_congr fun f _ => ?_
    rw [Bool.and_eq_true, and_iff_left_iff_imp]
    exact fun herror => hstyle f (of_decide_eq_true herror)
  · rw [hspacing, List.filter_filter]
    refine List.filter_congr fun f _ => ?_
    rw [Bool.eq_iff_iff, Bool.and_eq_true, and_iff_left_iff_imp, decide_eq_true_eq]
    exact hstyle f

end Report

end Analysis

end TwigTemplate
