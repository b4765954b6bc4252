import TwigTemplate.Element.Extent
import TwigTemplate.Proofs.Region.Search
import TwigTemplate.Proofs.Text.Search

/-!
# Two readings of template code

The cutter of regions reads an expression token by token: a quote with a partner takes the whole
literal along, a quote without one is an ordinary character, and a pair that closes the other form
takes its brace along.  The scan for tags reads it character by character: every quote opens a
literal, and a closer counts wherever it stands outside of literals.

* `ReadsAlike`: every quote has its partner, and no pair ends in the first brace of a closer.
* `codeLength?_eq`: **code that reads alike ends at the same place in both readings**.
-/

namespace TwigTemplate.Element

open Region (closing? commentLength? expressionLength? isQuote lengthAfterOpener? literal?
  literalRest?)
open Text (startsWith)

/-! ### Code that reads alike -/

/-- Whether an expression is read alike by tokens and by characters, up to its closer.  The first
argument counts the characters still to be passed over. -/
def expressionAlike (form : Form) : Nat → List Char → Bool
  | _, [] => true
  | skip + 1, _ :: r => expressionAlike form skip r
  | 0, c :: r =>
    match literal? (c :: r) with
    | some n => expressionAlike form (n - 1) r
    | none =>
      !isQuote c && match closing? (c :: r) with
        | some other =>
          decide (other = form) || (!startsWith form.closer r && expressionAlike form 1 r)
        | none => expressionAlike form 0 r

/-- Code behind its opener that is read alike by tokens and by characters.  A comment always is. -/
def ReadsAlike (form : Form) (cs : List Char) : Prop :=
  form ≠ .comment → expressionAlike form 0 cs = true

instance (form : Form) (cs : List Char) : Decidable (ReadsAlike form cs) :=
  inferInstanceAs (Decidable (form ≠ .comment → _))

theorem expressionAlike_skip {form : Form} (skip : Nat) (cs : List Char) :
    expressionAlike form skip cs = expressionAlike form 0 (cs.drop skip) := by
  induction cs generalizing skip with
  | nil =>
    rw [List.drop_nil, expressionAlike, expressionAlike]
  | cons c cs ih =>
    cases skip with
    | zero => rfl
    | succ skip => rw [expressionAlike, ih, List.drop_succ_cons]

section Equations

variable {form : Form} {c : Char} {cs : List Char}

theorem expressionAlike_literal {n : Nat} (h : literal? (c :: cs) = some n) :
    expressionAlike form 0 (c :: cs) = expressionAlike form 0 ((c :: cs).drop n) := by
  have htwo := (Region.literal?_bound h).1
  obtain ⟨n, rfl⟩ : ∃ m, n = m + 1 := ⟨n - 1, by omega⟩
  rw [expressionAlike, h, List.drop_succ_cons]
  exact expressionAlike_skip _ _

theorem expressionAlike_quote (h : literal? (c :: cs) = none) (hquote : isQuote c = true) :
    expressionAlike form 0 (c :: cs) = false := by
  rw [expressionAlike, h]
  simp only [hquote, Bool.not_true, Bool.false_and]

theorem expressionAlike_pair {other : Form} (h : literal? (c :: '\x7d' :: cs) = none)
    (hclose : closing? (c :: '\x7d' :: cs) = some other) (hother : other ≠ form) :
    expressionAlike form 0 (c :: '\x7d' :: cs) =
      (!startsWith form.closer ('\x7d' :: cs) && expressionAlike form 0 cs) := by
  rw [expressionAlike, h]
  simp [Region.isQuote_of_closing? hclose, hclose, hother, expressionAlike]

theorem expressionAlike_char (h : literal? (c :: cs) = none) (hquote : isQuote c = false)
    (hclose : closing? (c :: cs) = none) :
    expressionAlike form 0 (c :: cs) = expressionAlike form 0 cs := by
  rw [expressionAlike, h]
  simp [hquote, hclose]

end Equations

/-! ### Literals, character by character -/

section Literals

variable {closer : List Char} {quote : Char} {cs : List Char}

theorem codeLength?_inside (s : Literal.State) (hs : s ≠ .outside) (c : Char) (cs : List Char) :
    codeLength? closer true s (c :: cs) =
      (codeLength? closer true (codeStep s c) cs).map (· + 1) := by
  rw [codeLength?, if_neg fun h => hs h.1]
  rfl

theorem codeStep_backslash : codeStep (.inside quote) '\\' = .escaped quote := rfl

theorem codeStep_escaped {c : Char} (h : c ≠ '\n') :
    codeStep (.escaped quote) c = .inside quote := by
  rw [codeStep, if_neg h]
  rfl

theorem codeStep_quote (hline : quote ≠ '\n') (hslash : quote ≠ '\\') :
    codeStep (.inside quote) quote = .outside := by
  unfold codeStep
  rw [if_neg hline, Literal.step, if_neg hslash, if_pos rfl]

theorem codeStep_inside {c : Char} (hline : c ≠ '\n') (hslash : c ≠ '\\') (hquote : c ≠ quote) :
    codeStep (.inside quote) c = .inside quote := by
  unfold codeStep
  rw [if_neg hline, Literal.step, if_neg hslash, if_neg hquote]

/-- **A literal is passed as a whole.** -/
theorem codeLength?_literalRest {n : Nat} (h : literalRest? quote cs = some n) :
    codeLength? closer true (.inside quote) cs =
      (codeLength? closer true .outside (cs.drop n)).map (· + n) := by
  fun_induction literalRest? quote cs generalizing n with
  | case1 => exact absurd h (by simp)
  | case2 => exact absurd h (by simp)
  | case3 => exact absurd h (by simp)
  | case4 c r hc ih =>
    obtain ⟨m, hm, rfl⟩ := Option.map_eq_some_iff.mp h
    rw [codeLength?_inside _ (by simp), codeStep_backslash, codeLength?_inside _ (by simp),
      codeStep_escaped hc, ih hm, List.drop_succ_cons, List.drop_succ_cons, Region.option_map_add,
      Region.option_map_add]
  | case5 => exact absurd h (by simp)
  | case6 r hlast hpair hc =>
    obtain rfl := Option.some.inj h
    rw [codeLength?_inside _ (by simp), codeStep_quote hc (Region.ne_backslash hlast hpair)]
    rfl
  | case7 c r hlast hpair hc hquote ih =>
    obtain ⟨m, hm, rfl⟩ := Option.map_eq_some_iff.mp h
    rw [codeLength?_inside _ (by simp), codeStep_inside hc (Region.ne_backslash hlast hpair) hquote, ih hm,
      List.drop_succ_cons, Region.option_map_add]

end Literals

/-! ### Both readings -/

section Readings

variable {form : Form} {c : Char} {cs : List Char}

theorem startsWith_closer_iff (hform : form ≠ .comment) (cs : List Char) :
    startsWith form.closer cs = true ↔ closing? cs = some form := by
  rw [Text.startsWith_iff]
  constructor
  · rintro ⟨r, rfl⟩
    cases form with
    | comment => exact absurd rfl hform
    | output => rfl
    | statement => rfl
  · intro hclose
    obtain ⟨r, rfl, -⟩ := Region.eq_of_closing? hclose
    exact List.prefix_append _ _

theorem codeLength?_close (hform : form ≠ .comment) (hclose : closing? (c :: cs) = some form) :
    codeLength? form.closer true .outside (c :: cs) = some 2 := by
  rw [codeLength?, if_pos ⟨rfl, (startsWith_closer_iff hform _).mpr hclose⟩]
  cases form <;> rfl

theorem codeLength?_outside (hform : form ≠ .comment) (hclose : closing? (c :: cs) ≠ some form) :
    codeLength? form.closer true .outside (c :: cs) =
      (codeLength? form.closer true (codeStep .outside c) cs).map (· + 1) := by
  rw [codeLength?, if_neg fun h => hclose ((startsWith_closer_iff hform _).mp h.2)]
  rfl

theorem codeLength?_char (hform : form ≠ .comment) (hquote : isQuote c = false)
    (hclose : closing? (c :: cs) ≠ some form) :
    codeLength? form.closer true .outside (c :: cs) =
      (codeLength? form.closer true .outside cs).map (· + 1) := by
  have hstep : codeStep .outside c = .outside := by
    have hne : ¬ (c = '"' ∨ c = '\'') := by simpa [isQuote] using hquote
    unfold codeStep
    split
    · rfl
    · exact if_neg hne
  rw [codeLength?_outside hform hclose, hstep]

theorem codeLength?_quote (hform : form ≠ .comment) (hquote : isQuote c = true) :
    codeLength? form.closer true .outside (c :: cs) =
      (codeLength? form.closer true (.inside c) cs).map (· + 1) := by
  have heither : c = '"' ∨ c = '\'' := by simpa [isQuote] using hquote
  have hclose : closing? (c :: cs) ≠ some form := by
    rcases heither with rfl | rfl <;> simp [closing?]
  have hstep : codeStep .outside c = .inside c := by
    unfold codeStep
    rw [if_neg (Region.ne_newline_of_isQuote hquote)]
    exact if_pos heither
  rw [codeLength?_outside hform hclose, hstep]

theorem exists_literalRest {n : Nat} (h : literal? (c :: cs) = some n) :
    isQuote c = true ∧ ∃ m, literalRest? c cs = some m ∧ n = m + 1 := by
  rw [literal?] at h
  split at h
  · next hquote =>
    obtain ⟨m, hm, rfl⟩ := Option.map_eq_some_iff.mp h
    exact ⟨hquote, m, hm, rfl⟩
  · exact absurd h (by simp)

theorem expressionAlike_pair_iff (hform : form ≠ .comment) {other : Form}
    (hlit : literal? (c :: '\x7d' :: cs) = none)
    (hclose : closing? (c :: '\x7d' :: cs) = some other) (hother : other ≠ form) :
    expressionAlike form 0 (c :: '\x7d' :: cs) = true ↔
      closing? ('\x7d' :: cs) ≠ some form ∧ expressionAlike form 0 cs = true := by
  rw [expressionAlike_pair hlit hclose hother, Bool.and_eq_true, Bool.not_eq_true',
    Bool.eq_false_iff, Ne, startsWith_closer_iff hform]

theorem codeLength?_literal (hform : form ≠ .comment) {n : Nat}
    (h : literal? (c :: cs) = some n) :
    codeLength? form.closer true .outside (c :: cs) =
      (codeLength? form.closer true .outside ((c :: cs).drop n)).map (· + n) := by
  obtain ⟨hquote, m, hm, rfl⟩ := exists_literalRest h
  rw [codeLength?_quote hform hquote, codeLength?_literalRest hm, Region.option_map_add,
    List.drop_succ_cons]

/-- **An expression that reads alike ends at the same place in both readings.** -/
theorem codeLength?_expression (hform : form ≠ .comment)
    (halike : expressionAlike form 0 cs = true) :
    codeLength? form.closer true .outside cs = expressionLength? .document form 0 cs := by
  induction cs using Region.expression_induction form with
  | nil => rfl
  | literal c cs n hlit ih =>
    rw [expressionAlike_literal hlit] at halike
    rw [Region.expressionLength?_past_literal hlit, codeLength?_literal hform hlit, ih halike]
  | close c cs hlit hclose =>
    rw [Region.expressionLength?_close hlit hclose, codeLength?_close hform hclose]
  | pair c cs other hlit hclose hother ih =>
    obtain ⟨hfree, halike⟩ := (expressionAlike_pair_iff hform hlit hclose hother).mp halike
    rw [Region.expressionLength?_past_pair hlit hclose hother,
      codeLength?_char hform (Region.isQuote_of_closing? hclose) (by simp [hclose, hother]),
      codeLength?_char hform rfl hfree, Region.option_map_add, ih halike]
  | char c cs hlit hclose ih =>
    have hquote : isQuote c = false := Bool.eq_false_iff.mpr fun hquote => by
      rw [expressionAlike_quote hlit hquote] at halike
      exact absurd halike (by simp)
    rw [expressionAlike_char hlit hquote hclose] at halike
    rw [Region.expressionLength?_char hlit hclose, codeLength?_char hform hquote (by simp [hclose]),
      ih halike]

end Readings

/-! ### Comments -/

/-- **A comment ends at the same place in both readings.** -/
theorem codeLength?_comment (cs : List Char) :
    codeLength? Form.comment.closer false .outside cs = commentLength? .document cs := by
  induction cs with
  | nil => rfl
  | cons c cs ih =>
    by_cases hpair : c = '#' ∧ cs.head? = some '\x7d'
    · obtain ⟨rfl, hbrace⟩ := hpair
      obtain ⟨r, rfl⟩ := List.head?_eq_some_iff.mp hbrace
      rfl
    · have hstart : ¬ startsWith Form.comment.closer (c :: cs) = true := by
        rw [Text.startsWith_iff]
        rintro ⟨r, hr⟩
        obtain ⟨rfl, rfl⟩ := List.cons.inj hr
        exact hpair ⟨rfl, rfl⟩
      rw [codeLength?, if_neg fun h => hstart h.2,
        Region.commentLength?_char fun hc hbrace => hpair ⟨hc, hbrace⟩, ← ih]
      rfl

/-! ### Regions -/

/-- **Code that reads alike ends at the same place in both readings.** -/
theorem codeLength?_eq {form : Form} {cs : List Char} (h : ReadsAlike form cs) :
    codeLength? form.closer (form ≠ .comment) .outside cs =
      lengthAfterOpener? .document form cs := by
  by_cases hform : form = .comment
  · subst hform
    exact codeLength?_comment cs
  · rw [Region.lengthAfterOpener?_expression hform, decide_eq_true hform]
    exact codeLength?_expression hform (h hform)

end TwigTemplate.Element
