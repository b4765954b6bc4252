import TwigTemplate.Proofs.Region.Quoted

/-!
# The end of a text

Where a region ends does not hang on what follows it: a search that stops within a text finds the
same closer when the rest is taken away.  It does not hang on the end of the text either, when
nothing stands there that ends what was begun before: no quote, and no brace that makes a pair.

* `lengthAfterOpener?_of_append`: **a region that ends in a text needs nothing of what follows**.
* `Quiet`: an end without quotes that begins with no brace.
* `lengthAfterOpener?_append_quiet`: **a quiet end does not move the closers before it**.
-/

namespace TwigTemplate.Region

open Text (isBlank)

variable {reach : Reach} {form : Form} {x rest : List Char} {c : Char} {skip n : Nat}

/-! ### Without what follows -/

theorem literal?_append (h : literal? x = some n) (rest : List Char) :
    literal? (x ++ rest) = some n := by
  obtain ⟨q, inner, back, rfl, hquoted, rfl⟩ := exists_quoted_of_literal? h
  have hcut : q :: (inner ++ q :: back) ++ rest = q :: (inner ++ q :: (back ++ rest)) := by simp
  rw [hcut, literal?_of_quoted hquoted]

theorem literal?_of_append (h : literal? (x ++ rest) = some n) (hn : n ≤ x.length) :
    literal? x = some n := by
  obtain ⟨q, inner, back, hcut, hquoted, rfl⟩ := exists_quoted_of_literal? h
  have hpre : q :: (inner ++ [q]) <+: x := by
    have hwhole : q :: (inner ++ [q]) <+: x ++ rest := ⟨back, by rw [hcut]; simp⟩
    have hlength : (q :: (inner ++ [q])).length ≤ x.length := by
      rw [List.length_cons, List.length_append]
      exact hn
    exact List.prefix_of_prefix_length_le hwhole (List.prefix_append x rest) hlength
  obtain ⟨more, rfl⟩ := hpre
  have hshape : q :: (inner ++ [q]) ++ more = q :: (inner ++ q :: more) := by simp
  rw [hshape, literal?_of_quoted hquoted]

theorem literal?_none_of_append (h : literal? (x ++ rest) = none) : literal? x = none := by
  cases hx : literal? x with
  | none => rfl
  | some n =>
    rw [literal?_append hx rest] at h
    exact absurd h (by simp)

theorem closing?_none_of_append (h : closing? (c :: (x ++ rest)) = none) :
    closing? (c :: x) = none := by
  cases x with
  | nil =>
    rw [closing?_eq, if_neg (by simp)]
  | cons d x =>
    rw [closing?_eq] at h ⊢
    exact h

theorem closing?_of_append (h : closing? (c :: (x ++ rest)) = some form) (hx : x ≠ []) :
    closing? (c :: x) = some form := by
  obtain ⟨d, x, rfl⟩ := List.exists_cons_of_ne_nil hx
  rw [closing?_eq] at h ⊢
  exact h

/-- **An expression that ends in a text needs nothing of what follows the text.** -/
theorem expressionLength?_of_append
    (h : expressionLength? .document form 0 (x ++ rest) = some n) (hn : n ≤ x.length) :
    expressionLength? .document form 0 x = some n := by
  generalize hcs : x ++ rest = cs at h
  induction cs using expression_induction form generalizing x n with
  | nil => exact absurd h (by simp [expressionLength?])
  | literal c cs k hlit ih =>
    rw [expressionLength?_past_literal hlit] at h
    obtain ⟨m, hm, rfl⟩ := Option.map_eq_some_iff.mp h
    rw [← hcs] at hlit ih
    have hdrop : x.drop k ++ rest = (x ++ rest).drop k :=
      (List.drop_append_of_le_length (by omega)).symm
    rw [expressionLength?_past_literal (literal?_of_append hlit (by omega)),
      ih (by rw [List.length_drop]; omega) hdrop (hcs ▸ hm)]
    rfl
  | close c cs hlit hclose =>
    rw [expressionLength?_close hlit hclose] at h
    obtain rfl := Option.some.inj h
    obtain ⟨d, x, rfl⟩ := List.exists_cons_of_length_pos (Nat.lt_of_lt_of_le Nat.two_pos hn)
    obtain ⟨rfl, rfl⟩ := List.cons.inj hcs
    exact expressionLength?_close (literal?_none_of_append (x := d :: x) hlit)
      (closing?_of_append hclose (List.ne_nil_of_length_pos (Nat.le_of_succ_le_succ hn)))
  | pair c cs other hlit hclose hother ih =>
    rw [expressionLength?_past_pair hlit hclose hother] at h
    obtain ⟨m, hm, rfl⟩ := Option.map_eq_some_iff.mp h
    -- The pair is in the text, as what is read is two characters long.
    obtain ⟨d, x, rfl⟩ := List.exists_cons_of_length_pos (Nat.lt_of_lt_of_le (by omega) hn)
    obtain ⟨rfl, htail⟩ := List.cons.inj hcs
    rw [List.length_cons] at hn
    obtain ⟨e, x, rfl⟩ := List.exists_cons_of_length_pos (show 0 < x.length by omega)
    obtain ⟨rfl, rfl⟩ := List.cons.inj htail
    rw [List.length_cons] at hn
    rw [expressionLength?_past_pair (literal?_none_of_append (x := d :: _ :: x) hlit)
      (closing?_of_append (x := _ :: x) hclose (by simp)) hother, ih (by omega) rfl hm]
    rfl
  | char c cs hlit hclose ih =>
    rw [expressionLength?_char hlit hclose] at h
    obtain ⟨m, hm, rfl⟩ := Option.map_eq_some_iff.mp h
    obtain ⟨d, x, rfl⟩ := List.exists_cons_of_length_pos (Nat.lt_of_lt_of_le (Nat.succ_pos m) hn)
    obtain ⟨rfl, rfl⟩ := List.cons.inj hcs
    rw [expressionLength?_char (literal?_none_of_append (x := d :: x) hlit)
      (closing?_none_of_append hclose), ih (Nat.le_of_succ_le_succ hn) rfl hm]
    rfl

theorem commentLength?_of_append (h : commentLength? .document (x ++ rest) = some n)
    (hn : n ≤ x.length) : commentLength? .document x = some n := by
  induction x generalizing n with
  | nil =>
    obtain rfl := Nat.le_zero.mp hn
    exact absurd (commentLength?_bound h).1 (Nat.not_lt_zero _)
  | cons c x ih =>
    rw [List.cons_append] at h
    by_cases hpair : c = '#' ∧ (x ++ rest).head? = some '}'
    · obtain ⟨rfl, hbrace⟩ := hpair
      obtain ⟨back, hback⟩ := List.head?_eq_some_iff.mp hbrace
      rw [hback, commentLength?_close] at h
      obtain rfl := Option.some.inj h
      -- Both characters of the closer are in the text.
      obtain ⟨d, x, rfl⟩ : ∃ d x', x = d :: x' :=
        List.exists_cons_of_length_pos (Nat.le_of_succ_le_succ hn)
      obtain rfl : d = '}' := (List.cons.inj hback).1
      exact commentLength?_close x
    · have hnot : c = '#' → (x ++ rest).head? ≠ some '}' := fun hc hbrace => hpair ⟨hc, hbrace⟩
      have hnot' : c = '#' → x.head? ≠ some '}' := by
        intro hc hbrace
        obtain ⟨back, rfl⟩ := List.head?_eq_some_iff.mp hbrace
        exact hnot hc rfl
      rw [commentLength?_char hnot] at h
      obtain ⟨k, hk, rfl⟩ := Option.map_eq_some_iff.mp h
      rw [commentLength?_char hnot', ih hk (Nat.le_of_succ_le_succ hn), Option.map_some]

/-- **A region that ends in a text needs nothing of what follows the text.** -/
theorem lengthAfterOpener?_of_append
    (h : lengthAfterOpener? .document form (x ++ rest) = some n) (hn : n ≤ x.length) :
    lengthAfterOpener? .document form x = some n := by
  cases form with
  | comment => exact commentLength?_of_append h hn
  | output => exact expressionLength?_of_append h hn
  | statement => exact expressionLength?_of_append h hn

/-! ### Quiet ends -/

/-- The end of a text that has no part in anything begun before it. -/
structure Quiet (e : List Char) : Prop where
  free : ∀ c ∈ e, isQuote c = false
  brace : e.head? ≠ some '}'

section Quiet

variable {e m : List Char}

theorem isQuote_of_isBlank {c : Char} (h : isBlank c = true) : isQuote c = false := by
  rw [isQuote, decide_eq_false (ne_of_isBlank h (by decide)),
    decide_eq_false (ne_of_isBlank h (by decide))]
  rfl

theorem literal?_append_free (he : ∀ c ∈ e, isQuote c = false) (x : List Char) :
    literal? (x ++ e) = literal? x := by
  cases h : literal? (x ++ e) with
  | none => rw [literal?_none_of_append h]
  | some n =>
    symm
    apply literal?_of_append h
    obtain ⟨q, inner, back, hcut, hquoted, rfl⟩ := exists_quoted_of_literal? h
    have hsplit : x ++ e = (q :: inner) ++ (q :: back) := hcut
    rcases List.append_eq_append_iff.mp hsplit with ⟨m, -, hm⟩ | ⟨m, hm, hback⟩
    · have hq : q ∈ e := by
        rw [hm]
        exact List.mem_append_right _ List.mem_cons_self
      exact absurd hquoted.isQuote (by rw [he q hq]; simp)
    · cases m with
      | nil =>
        have hq : q ∈ e := by
          rw [List.nil_append] at hback
          rw [← hback]
          exact List.mem_cons_self
        exact absurd hquoted.isQuote (by rw [he q hq]; simp)
      | cons d m =>
        rw [hm]
        simp only [List.length_append, List.length_cons]
        omega

/-- **A quiet end does not move the closers before it.** -/
theorem lengthAfterOpener?_append_quiet (he : Quiet e) (hm : reach = .line → '\n' ∉ m) :
    lengthAfterOpener? reach form (m ++ e) =
      (lengthAfterOpener? reach form m).or
        ((lengthAfterOpener? reach form e).map (· + m.length)) :=
  lengthAfterOpener?_append ⟨fun c r _ => literal?_append_free he.free (c :: r), he.brace, hm⟩

end Quiet

end TwigTemplate.Region
