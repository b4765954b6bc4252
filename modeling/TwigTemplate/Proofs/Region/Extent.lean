import TwigTemplate.Region.Scan

/-!
# What the closer search returns

The functions of `Region/Extent.lean` count characters.  This file says what a
count that they return means.

* `literal?_bound`: a literal stays inside the text and on its line.
* `lengthAfterOpener?_bound`: a region ends inside the text, and on its line when
  the search may not leave the line.
-/

namespace TwigTemplate.Region

/-! ### Literals -/

theorem literalRest?_bound {quote : Char} {cs : List Char} {n : Nat}
    (h : literalRest? quote cs = some n) : 0 < n ∧ n ≤ cs.length ∧ '\n' ∉ cs.take n := by
  fun_induction literalRest? quote cs generalizing n with
  | case1 => simp at h
  | case2 => simp at h
  | case3 => simp at h
  | case4 c r hc ih =>
    obtain ⟨m, hm, rfl⟩ := Option.map_eq_some_iff.mp h
    obtain ⟨_, hle, hfree⟩ := ih hm
    refine ⟨by omega, by simp only [List.length_cons]; omega, ?_⟩
    simp only [List.take_succ_cons, List.mem_cons, not_or]
    exact ⟨by decide, fun he => hc he.symm, hfree⟩
  | case5 => simp at h
  | case6 r _ _ hc =>
    obtain rfl := Option.some.inj h
    refine ⟨by omega, by simp, ?_⟩
    simp only [List.take_succ_cons, List.take_zero, List.mem_cons, List.not_mem_nil, or_false]
    exact fun he => hc he.symm
  | case7 c r _ _ hc _ ih =>
    obtain ⟨m, hm, rfl⟩ := Option.map_eq_some_iff.mp h
    obtain ⟨_, hle, hfree⟩ := ih hm
    refine ⟨by omega, by simp only [List.length_cons]; omega, ?_⟩
    simp only [List.take_succ_cons, List.mem_cons, not_or]
    exact ⟨fun he => hc he.symm, hfree⟩

theorem ne_newline_of_isQuote {c : Char} (h : isQuote c = true) : c ≠ '\n' := by
  rintro rfl
  revert h
  decide

theorem literal?_bound {cs : List Char} {n : Nat} (h : literal? cs = some n) :
    2 ≤ n ∧ n ≤ cs.length ∧ '\n' ∉ cs.take n := by
  cases cs with
  | nil => simp [literal?] at h
  | cons c r =>
    rw [literal?] at h
    split at h
    · next hq =>
      obtain ⟨m, hm, rfl⟩ := Option.map_eq_some_iff.mp h
      obtain ⟨hpos, hle, hfree⟩ := literalRest?_bound hm
      refine ⟨by omega, by simp only [List.length_cons]; omega, ?_⟩
      simp only [List.take_succ_cons, List.mem_cons, not_or]
      exact ⟨fun he => ne_newline_of_isQuote hq he.symm, hfree⟩
    · simp at h

/-! ### Closers -/

theorem eq_of_closing? {cs : List Char} {form : Form} (h : closing? cs = some form) :
    ∃ r, cs = form.closer ++ r ∧ form ≠ .comment := by
  unfold closing? at h
  split at h
  · next r =>
    obtain rfl := Option.some.inj h
    exact ⟨r, rfl, by decide⟩
  · next r =>
    obtain rfl := Option.some.inj h
    exact ⟨r, rfl, by decide⟩
  · simp at h

theorem expressionLength?_bound {reach : Reach} {form : Form} {skip : Nat} {cs : List Char}
    {n : Nat} (h : expressionLength? reach form skip cs = some n) :
    skip < n ∧ n ≤ cs.length ∧
      (reach = .line → '\n' ∉ cs.take skip → '\n' ∉ cs.take n) := by
  fun_induction expressionLength? reach form skip cs generalizing n with
  | case1 => simp at h
  | case2 skip c r ih =>
    obtain ⟨m, hm, rfl⟩ := Option.map_eq_some_iff.mp h
    obtain ⟨hlt, hle, hfree⟩ := ih hm
    refine ⟨by omega, by simp only [List.length_cons]; omega, fun hreach hskip => ?_⟩
    simp only [List.take_succ_cons, List.mem_cons, not_or] at hskip ⊢
    exact ⟨hskip.1, hfree hreach hskip.2⟩
  | case3 c r k hk ih =>
    obtain ⟨m, hm, rfl⟩ := Option.map_eq_some_iff.mp h
    obtain ⟨hlt, hle, hfree⟩ := ih hm
    obtain ⟨htwo, _, hlit⟩ := literal?_bound hk
    refine ⟨by omega, by simp only [List.length_cons]; omega, fun hreach _ => ?_⟩
    obtain ⟨k, rfl⟩ : ∃ j, k = j + 1 := ⟨k - 1, by omega⟩
    simp only [List.take_succ_cons, List.mem_cons, not_or, Nat.add_sub_cancel] at hlit hfree ⊢
    exact ⟨hlit.1, hfree hreach hlit.2⟩
  | case4 c r _ hclose =>
    obtain rfl := Option.some.inj h
    obtain ⟨rest, hcs, hform⟩ := eq_of_closing? hclose
    rw [hcs]
    refine ⟨by omega, ?_, fun _ _ => ?_⟩
    · cases form <;> simp [Form.closer] at hform ⊢
    · cases form <;> simp [Form.closer] at hform ⊢
  | case5 c r _ other hclose _ ih =>
    obtain ⟨m, hm, rfl⟩ := Option.map_eq_some_iff.mp h
    obtain ⟨hlt, hle, hfree⟩ := ih hm
    obtain ⟨rest, hcs, hform⟩ := eq_of_closing? hclose
    refine ⟨by omega, by simp only [List.length_cons]; omega, fun hreach _ => ?_⟩
    have hpair : '\n' ∉ (c :: r).take 2 := by
      rw [hcs]
      cases other <;> simp [Form.closer] at hform ⊢
    simp only [List.take_succ_cons, List.mem_cons, not_or] at hpair ⊢
    exact ⟨hpair.1, hfree hreach (by simpa using hpair.2)⟩
  | case6 => simp at h
  | case7 c r _ _ hstop ih =>
    obtain ⟨m, hm, rfl⟩ := Option.map_eq_some_iff.mp h
    obtain ⟨hlt, hle, hfree⟩ := ih hm
    refine ⟨by omega, by simp only [List.length_cons]; omega, fun hreach _ => ?_⟩
    simp only [List.take_succ_cons, List.mem_cons, not_or]
    refine ⟨fun he => hstop ?_, hfree hreach (by simp)⟩
    simp [Reach.stopsAt, hreach, ← he]

theorem commentLength?_bound {reach : Reach} {cs : List Char} {n : Nat}
    (h : commentLength? reach cs = some n) :
    0 < n ∧ n ≤ cs.length ∧ (reach = .line → '\n' ∉ cs.take n) := by
  fun_induction commentLength? reach cs generalizing n with
  | case1 => simp at h
  | case2 r =>
    obtain rfl := Option.some.inj h
    exact ⟨by omega, by simp, fun _ => by simp⟩
  | case3 => simp at h
  | case4 c r _ hstop ih =>
    obtain ⟨m, hm, rfl⟩ := Option.map_eq_some_iff.mp h
    obtain ⟨_, hle, hfree⟩ := ih hm
    refine ⟨by omega, by simp only [List.length_cons]; omega, fun hreach => ?_⟩
    simp only [List.take_succ_cons, List.mem_cons, not_or]
    refine ⟨fun he => hstop ?_, hfree hreach⟩
    simp [Reach.stopsAt, hreach, ← he]

/-- **A region ends inside the text**, and on its line when it may not leave it. -/
theorem lengthAfterOpener?_bound {reach : Reach} {form : Form} {cs : List Char} {n : Nat}
    (h : lengthAfterOpener? reach form cs = some n) :
    n ≤ cs.length ∧ (reach = .line → '\n' ∉ cs.take n) := by
  cases form with
  | comment => exact ⟨(commentLength?_bound h).2.1, (commentLength?_bound h).2.2⟩
  | output =>
    obtain ⟨_, hle, hfree⟩ := expressionLength?_bound h
    exact ⟨hle, fun hreach => hfree hreach (by simp)⟩
  | statement =>
    obtain ⟨_, hle, hfree⟩ := expressionLength?_bound h
    exact ⟨hle, fun hreach => hfree hreach (by simp)⟩

end TwigTemplate.Region
