import TwigTemplate.Proofs.Ordered
import TwigTemplate.Proofs.Region.Agreement
import TwigTemplate.Proofs.Report.Pairing

/-!
# One text after another

The open blocks are all that an analysis carries over a newline.  So a text that leaves no block
open is analysed by itself, and what follows it is too, further down.

* `Point.shift`, `Region.shift`, `Finding.shift`: the same place on a line further down.
* `run_shift`: **regions further down are given the same findings further down**.
* `run_agrees`: regions that agree are read alike, whatever they end with.
* `run_lines_append`: **the lines of two texts are read one after the other**.
* `findings_append`: **the report on two texts is that on the first and that on the second**.
-/

namespace TwigTemplate

open List (Forall₂)

/-! ### Places further down -/

def Point.shift (n : Nat) (p : Point) : Point :=
  ⟨p.line + n, p.column, p.offset⟩

theorem Point.step_shift (n : Nat) (p : Point) (c : Char) :
    (p.shift n).step c = (p.step c).shift n := by
  rw [step, step]
  split
  · exact congrArg (Point.mk · 1 _) (Nat.add_right_comm p.line n 1)
  · rfl

theorem Point.advance_shift (n : Nat) (p : Point) (cs : List Char) :
    (p.shift n).advance cs = (p.advance cs).shift n := by
  induction cs generalizing p with
  | nil => rfl
  | cons c cs ih => rw [advance_cons, advance_cons, step_shift, ih]

namespace Region

def shift (n : Nat) (r : Region) : Region :=
  { r with start := r.start.shift n, stop := r.stop.shift n }

theorem locate_shift (n : Nat) (p : Point) (ps : List Piece) :
    locate (p.shift n) ps = (locate p ps).map (shift n) := by
  induction ps generalizing p with
  | nil => rfl
  | cons piece ps ih =>
    rw [locate, locate, Point.advance_shift, ih]
    rfl

/-- **Lines further down have the same regions further down.** -/
theorem ofLinesFrom_shift (n first : Nat) (ls : List (List Char)) :
    (ofLinesFrom (first + n) ls).flatten = (ofLinesFrom first ls).flatten.map (shift n) := by
  induction ls generalizing first with
  | nil => rfl
  | cons l ls ih =>
    have hline : ofLine l (first + n) = (ofLine l first).map (shift n) :=
      locate_shift n ⟨first, 1, 0⟩ _
    rw [ofLinesFrom, ofLinesFrom, List.flatten_cons, List.flatten_cons, List.map_append, hline,
      Nat.add_right_comm, ih]

end Region

/-- The finding on a line further down. -/
def Finding.shift (n : Nat) (f : Finding) : Finding :=
  { f with line := f.line + n }

namespace Analysis

variable {options : LintOptions}

def Frame.shift (n : Nat) (f : Frame) : Frame :=
  { f with line := f.line + n }

/-! ### Runs further down -/

theorem nest_shift (n : Nat) (r : Region) (role : Role) (name : List Char)
    (stack : List Frame) : nest (r.shift n) role name (stack.map (Frame.shift n)) =
      ((nest r role name stack).1.map (Frame.shift n), (nest r role name stack).2) := by
  cases role with
  | closes b => cases stack <;> rfl
  | _ => rfl

theorem regionCauses_shift (n : Nat) (r : Region) (stack : List Frame) :
    regionCauses options (r.shift n) (stack.map (Frame.shift n)) =
      ((regionCauses options r stack).1.map (Frame.shift n), (regionCauses options r stack).2) := by
  have hcontent : (r.shift n).content = r.content := rfl
  have hkind : (r.shift n).kind = r.kind := rfl
  rw [regionCauses, regionCauses, hkind, hcontent]
  split
  case h_4 =>
    rw [statementCauses, statementCauses]
    split
    · rfl
    · simp only [nest_shift]
  all_goals rfl

/-- **Regions further down are given the same findings further down**, and open and close the same
blocks. -/
theorem run_shift (n : Nat) (rs : List Region) (stack : List Frame) :
    run options (stack.map (Frame.shift n)) (rs.map (Region.shift n)) =
      ((run options stack rs).1.map (Frame.shift n),
        (run options stack rs).2.map (Finding.shift n)) := by
  induction rs generalizing stack with
  | nil => rfl
  | cons r rs ih =>
    rw [List.map_cons, run_cons, run_cons, regionCauses_shift, ih, List.map_append, List.map_map]
    rfl

theorem leftover_shift (n : Nat) (f : Frame) :
    (f.shift n).leftover = f.leftover.map (Finding.shift n) := by
  rw [Frame.leftover, Frame.leftover, List.map_append, apply_ite (List.map (Finding.shift n))]
  rfl

theorem flatMap_leftover_shift (n : Nat) (stack : List Frame) :
    (stack.map (Frame.shift n)).flatMap Frame.leftover =
      (stack.flatMap Frame.leftover).map (Finding.shift n) := by
  rw [List.flatMap_map, List.map_flatMap]
  exact List.flatMap_congr fun f _ => leftover_shift n f

/-! ### What a run reads of a region -/

theorem regionCauses_agrees {r s : Region} (h : Region.Agrees r s) (stack : List Frame) :
    regionCauses options r stack = regionCauses options s stack := by
  have hframe : ∀ b, Frame.ofRegion b r = Frame.ofRegion b s := fun b => by
    rw [Frame.ofRegion, Frame.ofRegion, h.line, h.column]
  have hnest : nest r = nest s := by
    funext role name stack
    cases role <;> simp only [nest, hframe]
  rw [regionCauses, regionCauses, h.kind, h.content]
  simp only [statementCauses, hnest]

/-- **Regions that agree are read alike.** -/
theorem run_agrees {rs ss : List Region} (h : Forall₂ Region.Agrees rs ss) (stack : List Frame) :
    run options stack rs = run options stack ss := by
  induction h generalizing stack with
  | nil => rfl
  | cons hrs _ ih => rw [run_cons, run_cons, regionCauses_agrees hrs, ih, hrs.line, hrs.column]

theorem run_opened (rs : List Region) (stack : List Frame) :
    run options stack (Region.opened rs) = run options stack rs := by
  induction rs generalizing stack with
  | nil => rfl
  | cons r rs ih =>
    by_cases hkind : r.kind = .text
    · have hpass : regionCauses options r stack = (stack, []) := by rw [regionCauses, hkind]
      rw [Region.opened, List.filter_cons_of_neg (by simp [hkind]), ← Region.opened, ih, run_cons,
        hpass]
      rfl
    · rw [Region.opened, List.filter_cons_of_pos (by simp [hkind]), ← Region.opened, run_cons,
        run_cons, ih]

theorem found_run_append (rs ss : List Region) (stack : List Frame) :
    (run options stack (rs ++ ss)).2 =
      (run options stack rs).2 ++ (run options (run options stack rs).1 ss).2 := by
  induction rs generalizing stack with
  | nil => rfl
  | cons r rs ih => rw [List.cons_append, run_cons, run_cons, ih, List.append_assoc]

/-! ### Two texts -/

theorem run_dropReturn {l : List Char} (h : '\n' ∉ l) (first : Nat) (stack : List Frame) :
    run options stack (Region.ofLine (Text.dropReturn l) first) =
      run options stack (Region.ofLine l first) := by
  obtain ⟨e, he, hcut⟩ := Region.exists_lineEnd l
  have hfree : '\n' ∉ Text.dropReturn l := fun hmem => h (Text.mem_of_mem_dropReturn hmem)
  -- Both lines are what the scan makes of the line with its newline.
  have hscan : ∀ {m e : List Char}, Region.LineEnd e → '\n' ∉ m →
      run options stack (Region.locate ⟨first, 1, 0⟩ (Region.pieces .line (m ++ e))) =
        run options stack (Region.ofLine m first) := fun {m e} he hm => by
    have hplace : Region.SamePlace ⟨first, 1, 0⟩ ⟨first, 1, 0⟩ := ⟨rfl, rfl⟩
    have hnone : List.Forall₂ Region.Agrees (Region.opened (Region.locate
        (Point.advance ⟨first, 1, 0⟩ (m ++ e)) (Region.pieces .line []))) [] := by
      rw [Region.pieces]
      exact .nil
    have hagrees := Region.agrees_append_end he hm hplace hnone
    rw [List.append_nil, List.append_nil] at hagrees
    rw [← run_opened, run_agrees hagrees, run_opened]
    rfl
  rw [← hscan he hfree, ← hcut, hscan (Or.inl rfl) h]

/-- **The lines of two texts are read one after the other**, whatever stands around the newline
between them. -/
theorem run_lines_append (a b : List Char) (first : Nat) (stack : List Frame) :
    run options stack (Region.ofLinesFrom first (Text.lines (a ++ '\n' :: b))).flatten =
      run options stack ((Region.ofLinesFrom first (Text.lines a)).flatten ++
        (Region.ofLinesFrom (first + (1 + Text.newlineCount a)) (Text.lines b)).flatten) := by
  have happend : ∀ (stack : List Frame) (rs ss : List Region), run options stack (rs ++ ss) =
      ((run options (run options stack rs).1 ss).1,
        (run options stack rs).2 ++ (run options (run options stack rs).1 ss).2) :=
    fun stack rs ss => Prod.ext run_append (found_run_append rs ss stack)
  induction a using Text.line_induction generalizing first stack with
  | last a hfree =>
    rw [Text.lines_append_newline hfree, Region.ofLinesFrom, List.flatten_cons,
      Region.flatten_ofLinesFrom_lines hfree, happend, happend, run_dropReturn hfree,
      Text.newlineCount_eq_zero.mpr hfree]
  | line l a hfree ih =>
    have hcount : first + (1 + Text.newlineCount (l ++ '\n' :: a)) =
        first + 1 + (1 + Text.newlineCount a) := by
      rw [Text.newlineCount_append, Text.newlineCount_eq_zero.mpr hfree, Text.newlineCount,
        List.count_cons_self, Text.newlineCount]
      omega
    rw [List.append_assoc, List.cons_append, Text.lines_append_newline hfree,
      Text.lines_append_newline hfree, Region.ofLinesFrom, Region.ofLinesFrom, List.flatten_cons,
      List.flatten_cons, List.append_assoc, happend, happend, run_dropReturn hfree,
      hcount, ih (first + 1)]

theorem line_le_of_mem_lines {a : List Char} {first : Nat} :
    ∀ r ∈ (Region.ofLinesFrom first (Text.lines a)).flatten,
      r.line ≤ first + Text.newlineCount a := by
  induction a using Text.line_induction generalizing first with
  | last a hfree =>
    rw [Region.flatten_ofLinesFrom_lines hfree]
    exact fun r hr => Nat.le_add_right_of_le (line_of_mem_ofLine hfree r hr).le
  | line l a hfree ih =>
    intro r hr
    rw [Text.newlineCount_append, Text.newlineCount, Text.newlineCount, List.count_cons_self,
      ← Text.newlineCount, ← Text.newlineCount]
    rw [Text.lines_append_newline hfree, Region.ofLinesFrom, List.flatten_cons] at hr
    rcases List.mem_append.mp hr with hr | hr
    · have hreturn : '\n' ∉ Text.dropReturn l := fun hmem =>
        hfree (Text.mem_of_mem_dropReturn hmem)
      rw [line_of_mem_ofLine hreturn r hr]
      omega
    · have := ih r hr
      omega

/-- **A finding of a run stands at a region**, and says what is wrong with it, given the blocks that
are open in front of it. -/
theorem exists_split_of_mem_run {rs : List Region} {stack : List Frame} {f : Finding}
    (h : f ∈ (run options stack rs).2) : ∃ before r after, rs = before ++ r :: after ∧
      f.line = r.line ∧ f.column = r.column ∧
      f.cause ∈ (regionCauses options r (run options stack before).1).2 := by
  induction rs generalizing stack with
  | nil => exact absurd h List.not_mem_nil
  | cons r rs ih =>
    rw [run_cons] at h
    rcases List.mem_append.mp h with h | h
    · obtain ⟨c, hc, rfl⟩ := List.mem_map.mp h
      exact ⟨[], r, rs, rfl, rfl, rfl, hc⟩
    · obtain ⟨before, s, after, rfl, hfound⟩ := ih h
      exact ⟨r :: before, s, after, rfl, hfound⟩

theorem exists_region_of_mem_run {rs : List Region} {stack : List Frame} :
    ∀ f ∈ (run options stack rs).2, ∃ r ∈ rs, ∃ st, f.line = r.line ∧ f.column = r.column ∧
      f.cause ∈ (regionCauses options r st).2 := by
  intro f hf
  obtain ⟨before, r, after, rfl, hfound⟩ := exists_split_of_mem_run hf
  exact ⟨r, List.mem_append_right _ List.mem_cons_self, _, hfound⟩

theorem exists_finding_of_mem_run {r : Region} {rs : List Region} (hr : r ∈ rs)
    (stack : List Frame) : ∃ st, ∀ c ∈ (regionCauses options r st).2,
      ⟨r.line, r.column, c⟩ ∈ (run options stack rs).2 := by
  induction rs generalizing stack with
  | nil => exact absurd hr List.not_mem_nil
  | cons s rs ih =>
    rw [run_cons]
    rcases List.mem_cons.mp hr with rfl | hr
    · exact ⟨stack, fun c hc => List.mem_append_left _ (List.mem_map_of_mem hc)⟩
    · obtain ⟨st, hst⟩ := ih hr (regionCauses options s stack).1
      exact ⟨st, fun c hc => List.mem_append_right _ (hst c hc)⟩

theorem mem_findings_iff {cs : List Char} {f : Finding} : f ∈ (analyze options cs).findings ↔
    f ∈ (run options [] (Region.ofLines cs).flatten).2 ∨
      ∃ frame ∈ (run options [] (Region.ofLines cs).flatten).1, f ∈ frame.leftover := by
  refine List.mem_mergeSort.trans (List.mem_append.trans (or_congr_right ?_))
  simp only [List.mem_flatMap, List.mem_reverse]

/-- A report without blocks that are never closed is one on a run that leaves none open. -/
theorem stack_eq_nil_of_analyze {a : List Char}
    (h : ∀ f ∈ (analyze options a).findings, ∀ tag, f.cause ≠ .unclosedBlock tag) :
    (run options [] (Region.ofLines a).flatten).1 = [] := by
  refine List.eq_nil_iff_forall_not_mem.mpr fun frame hframe => ?_
  refine h ⟨frame.line, frame.column, .unclosedBlock frame.block⟩
    (mem_findings_iff.mpr (Or.inr ⟨frame, hframe, ?_⟩)) frame.block rfl
  rw [Frame.leftover]
  exact List.mem_append_right _ (List.mem_singleton.mpr rfl)

/-- Behind a text that leaves no block open the lines of another one are read as if they stood
alone. -/
theorem run_lines_of_closed {a : List Char} (h : (run options [] (Region.ofLines a).flatten).1 = [])
    (b : List Char) : run options [] (Region.ofLines (a ++ '\n' :: b)).flatten =
      ((run options [] (Region.ofLines b).flatten).1.map (Frame.shift (1 + Text.newlineCount a)),
        (run options [] (Region.ofLines a).flatten).2 ++
          (run options [] (Region.ofLines b).flatten).2.map
            (Finding.shift (1 + Text.newlineCount a))) := by
  have hbelow := @run_shift options (1 + Text.newlineCount a) (Region.ofLines b).flatten []
  rw [Region.ofLines, ← Region.ofLinesFrom_shift, List.map_nil] at hbelow
  rw [Region.ofLines, run_lines_append]
  refine Prod.ext ?_ ?_
  · rw [run_append, ← Region.ofLines, h, hbelow]
    rfl
  · rw [found_run_append, ← Region.ofLines, h, hbelow]
    rfl

/-- **The report on two texts** is the report on the first one, when this leaves no block open,
and then the report on the second one, as many lines further down as the first one has. -/
theorem findings_append (options : LintOptions) (a b : List Char)
    (h : ∀ f ∈ (analyze options a).findings, ∀ tag, f.cause ≠ .unclosedBlock tag) :
    (analyze options (a ++ '\n' :: b)).findings = (analyze options a).findings ++
      (analyze options b).findings.map (Finding.shift (1 + Text.newlineCount a)) := by
  have hstack := stack_eq_nil_of_analyze h
  have hrun := run_lines_of_closed hstack b
  have hlines : ∀ f ∈ (run options [] (Region.ofLines a).flatten).2,
      ∀ g ∈ (run options [] (Region.ofLines b).flatten).2.map
          (Finding.shift (1 + Text.newlineCount a)) ++
        ((run options [] (Region.ofLines b).flatten).1.reverse.flatMap Frame.leftover).map
          (Finding.shift (1 + Text.newlineCount a)), f.line ≤ g.line := by
    intro f hf g hg
    obtain ⟨r, hr, -, hline, -⟩ := exists_region_of_mem_run f hf
    have hle := line_le_of_mem_lines r hr
    rw [← List.map_append] at hg
    obtain ⟨g, -, rfl⟩ := List.mem_map.mp hg
    show f.line ≤ g.line + (1 + Text.newlineCount a)
    omega
  show (Report.ofFindings ((run options [] _).2 ++ (run options [] _).1.reverse.flatMap
    Frame.leftover)).findings = (Report.ofFindings ((run options [] _).2 ++
      (run options [] _).1.reverse.flatMap Frame.leftover)).findings ++ (Report.ofFindings
        ((run options [] _).2 ++ (run options [] _).1.reverse.flatMap
          Frame.leftover)).findings.map _
  rw [hrun, hstack, ← List.map_reverse, flatMap_leftover_shift, List.append_assoc,
    List.reverse_nil, List.flatMap_nil, List.append_nil]
  show List.mergeSort _ (Ordered.byKey Finding.line) = List.mergeSort _ (Ordered.byKey Finding.line)
    ++ (List.mergeSort _ (Ordered.byKey Finding.line)).map _
  rw [Ordered.mergeSort_append hlines, ← List.map_append]
  refine congrArg _ (List.map_mergeSort fun f _ g _ => ?_).symm
  show decide (f.line ≤ g.line) =
    decide (f.line + (1 + Text.newlineCount a) ≤ g.line + (1 + Text.newlineCount a))
  exact decide_eq_decide.mpr (Nat.add_le_add_iff_right).symm

/-- What follows a closed block is read as if it stood alone. -/
theorem findings_append_closer :
    (∀ f ∈ (analyze .standard "{% if x %}\n{% endif %}\n{{ }}".toList).findings,
        ∀ tag, f.cause ≠ .unclosedBlock tag) ∧
      (analyze .standard ("{% if x %}\n{% endif %}\n{{ }}".toList ++
        '\n' :: "{{ x }}\n{% endif %}".toList)).findings =
          [⟨3, 1, .emptyOutput⟩, ⟨5, 1, .unexpectedCloser .conditional⟩] := by
  have hfindings : (analyze .standard "{% if x %}\n{% endif %}\n{{ }}".toList).findings =
      [⟨3, 1, .emptyOutput⟩] := by decide +kernel
  have hclosed : ∀ f ∈ (analyze .standard "{% if x %}\n{% endif %}\n{{ }}".toList).findings,
      ∀ tag, f.cause ≠ .unclosedBlock tag := by
    rw [hfindings]
    rintro f hf tag
    rw [List.mem_singleton.mp hf]
    exact Cause.noConfusion
  refine ⟨hclosed, ?_⟩
  rw [findings_append .standard _ _ hclosed, hfindings]
  decide +kernel

end Analysis

end TwigTemplate
