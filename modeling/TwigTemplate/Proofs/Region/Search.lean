import TwigTemplate.Proofs.Region.Extent

/-!
# The search for a closer, step by step

What the search does at the next character: behind a quote it takes the whole literal
along, a pair that closes the other form loses its brace to it, and any other character
is passed by itself.

* `expressionLength?_past_literal`, `expressionLength?_past_pair`, `expressionLength?_pass`: the
  search goes on behind what it takes at once.
* `expression_induction`: **what these steps carry over holds of every text**.
* `lengthAfterOpener?_closer`: what is found ends with the closer.
* `Detached`, `lengthAfterOpener?_append`: a text is searched by itself when nothing that begins in
  it reaches further.
-/

namespace TwigTemplate.Region

theorem option_map_add (o : Option Nat) (a b : Nat) :
    (o.map (· + a)).map (· + b) = o.map (· + (a + b)) := by
  cases o with
  | none => rfl
  | some n => exact congrArg some (Nat.add_assoc n a b)

theorem Reach.stopsAt_iff {reach : Reach} {c : Char} :
    reach.stopsAt c = true ↔ reach = .line ∧ c = '\n' := by
  rw [Reach.stopsAt, Bool.and_eq_true, decide_eq_true_eq, decide_eq_true_eq]

/-! ### Literals -/

theorem ne_backslash_of_isQuote {q : Char} (hq : isQuote q = true) : q ≠ '\\' := by
  rintro rfl
  exact absurd hq (by decide)

section Literals

variable {q : Char}

theorem literalRest?_newline (q : Char) (cs : List Char) : literalRest? q ('\n' :: cs) = none := by
  rw [literalRest?]
  · exact if_pos rfl
  · exact fun he => absurd he (by decide)
  · exact fun c r he => absurd he (by decide)

theorem literalRest?_escape {c : Char} (hc : c ≠ '\n') (cs : List Char) :
    literalRest? q ('\\' :: c :: cs) = (literalRest? q cs).map (· + 2) := by
  rw [literalRest?, if_neg hc]

theorem literalRest?_escape_newline (cs : List Char) :
    literalRest? q ('\\' :: '\n' :: cs) = none := by
  rw [literalRest?, if_pos rfl]

theorem ne_backslash {c : Char} {r : List Char} (hlast : c = '\\' → r = [] → False)
    (hescape : ∀ d s, c = '\\' → r = d :: s → False) : c ≠ '\\' := by
  intro hc
  cases r with
  | nil => exact hlast hc rfl
  | cons d s => exact hescape d s hc rfl

theorem literalRest?_partner (hslash : q ≠ '\\') (hnl : q ≠ '\n') (cs : List Char) :
    literalRest? q (q :: cs) = some 1 := by
  rw [literalRest?]
  · rw [if_neg hnl, if_pos rfl]
  · exact fun he => absurd he hslash
  · exact fun c r he => absurd he hslash

theorem literalRest?_close (hq : isQuote q = true) (cs : List Char) :
    literalRest? q (q :: cs) = some 1 :=
  literalRest?_partner (ne_backslash_of_isQuote hq) (ne_newline_of_isQuote hq) cs

theorem literalRest?_char {c : Char} (hslash : c ≠ '\\') (hnl : c ≠ '\n') (hc : c ≠ q)
    (cs : List Char) : literalRest? q (c :: cs) = (literalRest? q cs).map (· + 1) := by
  rw [literalRest?]
  · rw [if_neg hnl, if_neg hc]
  · exact fun he => absurd he hslash
  · exact fun d r he => absurd he hslash

end Literals

/-! ### Pairs of characters -/

theorem closing?_eq (c : Char) (cs : List Char) :
    closing? (c :: cs) =
      if cs.head? = some '}' then
        if c = '}' then some .output else if c = '%' then some .statement else none
      else none := by
  cases cs with
  | nil => simp [closing?]
  | cons d cs =>
    by_cases hd : d = '}'
    · subst hd
      by_cases hc : c = '}'
      · subst hc
        rfl
      by_cases hc' : c = '%'
      · subst hc'
        rfl
      · rw [closing?]
        · simp [hc, hc']
        · simp [hc]
        · simp [hc']
    · rw [closing?]
      · simp [hd]
      · simp [hd]
      · simp [hd]

theorem isQuote_of_closing? {c : Char} {r : List Char} {other : Form}
    (h : closing? (c :: r) = some other) : isQuote c = false := by
  obtain ⟨rest, hcut, hother⟩ := eq_of_closing? h
  cases other with
  | comment => exact absurd rfl hother
  | output => rw [(List.cons.inj hcut).1]; rfl
  | statement => rw [(List.cons.inj hcut).1]; rfl

theorem exists_pair {c : Char} {r : List Char} {other : Form} (h : closing? (c :: r) = some other) :
    ∃ rest, r = '}' :: rest := by
  obtain ⟨rest, hcut, hother⟩ := eq_of_closing? h
  cases other with
  | comment => exact absurd rfl hother
  | output => exact ⟨rest, (List.cons.inj hcut).2⟩
  | statement => exact ⟨rest, (List.cons.inj hcut).2⟩

theorem length_pos_of_pair {c : Char} {r : List Char} {other : Form}
    (h : closing? (c :: r) = some other) : 1 ≤ r.length := by
  obtain ⟨rest, rfl⟩ := exists_pair h
  exact Nat.le_add_left 1 _

/-! ### Expressions -/

section Expressions

variable {reach : Reach} {form other : Form} {c : Char} {cs : List Char}

theorem expressionLength?_literal {k : Nat} (h : literal? (c :: cs) = some k) :
    expressionLength? reach form 0 (c :: cs) =
      (expressionLength? reach form (k - 1) cs).map (· + 1) := by
  rw [expressionLength?, h]

theorem expressionLength?_close (hlit : literal? (c :: cs) = none)
    (hclose : closing? (c :: cs) = some form) :
    expressionLength? reach form 0 (c :: cs) = some 2 := by
  rw [expressionLength?, hlit]
  simp only [hclose, if_true]

theorem expressionLength?_pair (hlit : literal? (c :: cs) = none)
    (hclose : closing? (c :: cs) = some other) (hother : other ≠ form) :
    expressionLength? reach form 0 (c :: cs) =
      (expressionLength? reach form 1 cs).map (· + 1) := by
  rw [expressionLength?, hlit]
  simp only [hclose, if_neg hother]

theorem expressionLength?_stop (hlit : literal? (c :: cs) = none)
    (hclose : closing? (c :: cs) = none) (hstop : reach.stopsAt c = true) :
    expressionLength? reach form 0 (c :: cs) = none := by
  rw [expressionLength?, hlit]
  simp only [hclose, hstop, if_true]

theorem expressionLength?_pass (hlit : literal? (c :: cs) = none)
    (hclose : closing? (c :: cs) = none) (hstop : reach.stopsAt c = false) :
    expressionLength? reach form 0 (c :: cs) =
      (expressionLength? reach form 0 cs).map (· + 1) := by
  rw [expressionLength?, hlit]
  simp only [hclose, hstop, Bool.false_eq_true, if_false]

theorem expressionLength?_char (hlit : literal? (c :: cs) = none)
    (hclose : closing? (c :: cs) = none) :
    expressionLength? .document form 0 (c :: cs) =
      (expressionLength? .document form 0 cs).map (· + 1) :=
  expressionLength?_pass hlit hclose rfl

theorem expressionLength?_skip {skip : Nat} (h : skip ≤ cs.length) :
    expressionLength? reach form skip cs =
      (expressionLength? reach form 0 (cs.drop skip)).map (· + skip) := by
  induction cs generalizing skip with
  | nil =>
    obtain rfl : skip = 0 := by simpa using h
    rw [List.drop_nil, expressionLength?]
    rfl
  | cons c cs ih =>
    cases skip with
    | zero =>
      rw [List.drop_zero]
      cases expressionLength? reach form 0 (c :: cs) <;> rfl
    | succ skip =>
      rw [expressionLength?, ih (by simpa using h), option_map_add, List.drop_succ_cons]

theorem expressionLength?_past_literal {k : Nat} (h : literal? cs = some k) :
    expressionLength? reach form 0 cs =
      (expressionLength? reach form 0 (cs.drop k)).map (· + k) := by
  obtain ⟨htwo, hle, -⟩ := literal?_bound h
  obtain ⟨k, rfl⟩ : ∃ j, k = j + 1 := ⟨k - 1, by omega⟩
  obtain ⟨c, cs, rfl⟩ := List.exists_cons_of_length_pos (Nat.lt_of_lt_of_le (by omega) hle)
  rw [expressionLength?_literal h, Nat.add_sub_cancel,
    expressionLength?_skip (Nat.le_of_succ_le_succ hle), option_map_add, List.drop_succ_cons]

theorem expressionLength?_past_pair (hlit : literal? (c :: '}' :: cs) = none)
    (hclose : closing? (c :: '}' :: cs) = some other) (hother : other ≠ form) :
    expressionLength? reach form 0 (c :: '}' :: cs) =
      (expressionLength? reach form 0 cs).map (· + 2) := by
  rw [expressionLength?_pair hlit hclose hother, expressionLength?_skip (by simp), option_map_add]
  rfl

/-- **Induction along the search.**  What holds behind a literal, behind a pair that closes the
other form, or behind any other character, holds before it. -/
@[elab_as_elim]
theorem expression_induction (form : Form) {motive : List Char → Prop} (cs : List Char)
    (nil : motive [])
    (literal : ∀ c cs k, literal? (c :: cs) = some k → motive ((c :: cs).drop k) →
      motive (c :: cs))
    (close : ∀ c cs, literal? (c :: cs) = none → closing? (c :: cs) = some form →
      motive (c :: cs))
    (pair : ∀ c cs other, literal? (c :: '}' :: cs) = none →
      closing? (c :: '}' :: cs) = some other → other ≠ form → motive cs →
      motive (c :: '}' :: cs))
    (char : ∀ c cs, literal? (c :: cs) = none → closing? (c :: cs) = none → motive cs →
      motive (c :: cs)) : motive cs := by
  -- The induction is on the length of the text, as literals and pairs are taken at once.
  generalize hlength : cs.length = l
  induction l using Nat.strongRecOn generalizing cs with
  | ind l ih =>
    cases cs with
    | nil => exact nil
    | cons c cs =>
      rw [List.length_cons] at hlength
      cases hlit : literal? (c :: cs) with
      | some k =>
        have htwo := (literal?_bound hlit).1
        refine literal c cs k hlit (ih _ ?_ _ rfl)
        rw [List.length_drop, List.length_cons]
        omega
      | none =>
        cases hclose : closing? (c :: cs) with
        | none => exact char c cs hlit hclose (ih _ (by omega) _ rfl)
        | some other =>
          by_cases hother : other = form
          · exact close c cs hlit (hother ▸ hclose)
          · obtain ⟨rest, rfl⟩ := exists_pair hclose
            rw [List.length_cons] at hlength
            exact pair c rest other hlit hclose hother (ih _ (by omega) _ rfl)

end Expressions

/-! ### Comments -/

section Comments

variable {reach : Reach} {c : Char} {cs : List Char}

theorem commentLength?_close (cs : List Char) :
    commentLength? reach ('#' :: '}' :: cs) = some 2 := by
  rw [commentLength?]

theorem head?_ne_of_not_pair (h : ∀ r : List Char, c = '#' → cs = '}' :: r → False) :
    c = '#' → cs.head? ≠ some '}' := by
  intro hc hbrace
  obtain ⟨r, rfl⟩ := List.head?_eq_some_iff.mp hbrace
  exact h r hc rfl

theorem commentLength?_stop (h : c = '#' → cs.head? ≠ some '}') (hstop : reach.stopsAt c = true) :
    commentLength? reach (c :: cs) = none := by
  rw [commentLength?]
  · rw [if_pos hstop]
  · rintro r rfl rfl
    exact h rfl rfl

theorem commentLength?_pass (h : c = '#' → cs.head? ≠ some '}')
    (hstop : reach.stopsAt c = false) :
    commentLength? reach (c :: cs) = (commentLength? reach cs).map (· + 1) := by
  rw [commentLength?]
  · rw [hstop]
    rfl
  · rintro r rfl rfl
    exact h rfl rfl

theorem commentLength?_char (h : c = '#' → cs.head? ≠ some '}') :
    commentLength? .document (c :: cs) = (commentLength? .document cs).map (· + 1) :=
  commentLength?_pass h rfl

end Comments

/-! ### What is found -/

theorem lengthAfterOpener?_expression {reach : Reach} {form : Form} {cs : List Char}
    (hform : form ≠ .comment) :
    lengthAfterOpener? reach form cs = expressionLength? reach form 0 cs := by
  cases form with
  | comment => exact absurd rfl hform
  | output => rfl
  | statement => rfl

theorem expressionLength?_closer {reach : Reach} {form : Form} {skip : Nat} {cs : List Char}
    {n : Nat} (h : expressionLength? reach form skip cs = some n) :
    ∃ inner rest, cs = inner ++ (form.closer ++ rest) ∧ n = inner.length + 2 := by
  have step : ∀ {c : Char} {cs : List Char} {m : Nat},
      (∃ inner rest, cs = inner ++ (form.closer ++ rest) ∧ m = inner.length + 2) →
      ∃ inner rest, c :: cs = inner ++ (form.closer ++ rest) ∧ m + 1 = inner.length + 2 := by
    rintro c cs m ⟨inner, rest, rfl, rfl⟩
    exact ⟨c :: inner, rest, rfl, rfl⟩
  fun_induction expressionLength? reach form skip cs generalizing n with
  | case1 => simp at h
  | case2 skip c r ih =>
    obtain ⟨m, hm, rfl⟩ := Option.map_eq_some_iff.mp h
    exact step (ih hm)
  | case3 c r k hk ih =>
    obtain ⟨m, hm, rfl⟩ := Option.map_eq_some_iff.mp h
    exact step (ih hm)
  | case4 c r _ hclose =>
    obtain rfl := Option.some.inj h
    obtain ⟨rest, hcs, -⟩ := eq_of_closing? hclose
    exact ⟨[], rest, hcs, rfl⟩
  | case5 c r _ other hclose _ ih =>
    obtain ⟨m, hm, rfl⟩ := Option.map_eq_some_iff.mp h
    exact step (ih hm)
  | case6 => simp at h
  | case7 c r _ _ hstop ih =>
    obtain ⟨m, hm, rfl⟩ := Option.map_eq_some_iff.mp h
    exact step (ih hm)

theorem commentLength?_closer {reach : Reach} {cs : List Char} {n : Nat}
    (h : commentLength? reach cs = some n) :
    ∃ inner rest, cs = inner ++ (Form.comment.closer ++ rest) ∧ n = inner.length + 2 := by
  fun_induction commentLength? reach cs generalizing n with
  | case1 => simp at h
  | case2 r =>
    obtain rfl := Option.some.inj h
    exact ⟨[], r, rfl, rfl⟩
  | case3 => simp at h
  | case4 c r _ hstop ih =>
    obtain ⟨m, hm, rfl⟩ := Option.map_eq_some_iff.mp h
    obtain ⟨inner, rest, rfl, rfl⟩ := ih hm
    exact ⟨c :: inner, rest, rfl, rfl⟩

/-- **A region ends with its closer.** -/
theorem lengthAfterOpener?_closer {reach : Reach} {form : Form} {cs : List Char} {n : Nat}
    (h : lengthAfterOpener? reach form cs = some n) :
    ∃ inner rest, cs = inner ++ (form.closer ++ rest) ∧ n = inner.length + 2 := by
  cases form with
  | comment => exact commentLength?_closer h
  | output => exact expressionLength?_closer h
  | statement => exact expressionLength?_closer h

/-! ### What follows -/

/-- What follows a text takes no part in what was begun in it. -/
structure Detached (reach : Reach) (m e : List Char) : Prop where
  literal : ∀ c r, c :: r <:+ m → literal? (c :: (r ++ e)) = literal? (c :: r)
  brace : e.head? ≠ some '}'
  line : reach = .line → '\n' ∉ m

section Detached

variable {reach : Reach} {form : Form} {c : Char} {m e : List Char}

namespace Detached

theorem tail (h : Detached reach (c :: m) e) : Detached reach m e :=
  ⟨fun d r hr => h.literal d r (hr.trans (List.suffix_cons c m)), h.brace,
    fun hreach hmem => h.line hreach (List.mem_cons_of_mem _ hmem)⟩

theorem literal?_eq (h : Detached reach (c :: m) e) :
    literal? (c :: (m ++ e)) = literal? (c :: m) :=
  h.literal c m List.suffix_rfl

theorem head?_iff (h : Detached reach m e) :
    (m ++ e).head? = some '}' ↔ m.head? = some '}' := by
  cases m with
  | nil => exact iff_of_false h.brace (by simp)
  | cons c m => rfl

theorem closing?_eq (h : Detached reach (c :: m) e) :
    closing? (c :: (m ++ e)) = closing? (c :: m) := by
  rw [Region.closing?_eq, Region.closing?_eq]
  simp only [h.tail.head?_iff]

theorem stopsAt_eq (h : Detached reach (c :: m) e) : reach.stopsAt c = false := by
  rw [Bool.eq_false_iff, Ne, Reach.stopsAt_iff]
  rintro ⟨hreach, rfl⟩
  exact h.line hreach List.mem_cons_self

end Detached

theorem map_or_map (o t : Option Nat) (n : Nat) :
    (o.or (t.map (· + n))).map (· + 1) = (o.map (· + 1)).or (t.map (· + (n + 1))) := by
  cases o with
  | some k => rfl
  | none => exact Option.map_map _ _ _

theorem expressionLength?_append {skip : Nat} (h : Detached reach m e)
    (hskip : skip ≤ m.length) : expressionLength? reach form skip (m ++ e) =
      (expressionLength? reach form skip m).or
        ((expressionLength? reach form 0 e).map (· + m.length)) := by
  fun_induction expressionLength? reach form skip m with
  | case1 =>
    obtain rfl := Nat.le_zero.mp hskip
    exact (Option.map_id' (x := _)).symm
  | case2 skip c r ih =>
    rw [List.cons_append, expressionLength?, ih h.tail (Nat.le_of_succ_le_succ hskip), map_or_map]
    rfl
  | case3 c r k hlit ih =>
    have hbound := (literal?_bound hlit).2.1
    rw [List.length_cons] at hbound
    rw [List.cons_append, expressionLength?_literal (h.literal?_eq.trans hlit),
      ih h.tail (by omega), map_or_map]
    rfl
  | case4 c r hlit hclose =>
    rw [List.cons_append, expressionLength?_close (h.literal?_eq.trans hlit)
      (h.closing?_eq.trans hclose)]
    rfl
  | case5 c r hlit other hclose hother ih =>
    rw [List.cons_append, expressionLength?_pair (h.literal?_eq.trans hlit)
      (h.closing?_eq.trans hclose) hother, ih h.tail (length_pos_of_pair hclose), map_or_map]
    rfl
  | case6 c r _ _ hstop => exact absurd hstop (by simp [h.stopsAt_eq])
  | case7 c r hlit hclose _ ih =>
    rw [List.cons_append, expressionLength?_pass (h.literal?_eq.trans hlit)
      (h.closing?_eq.trans hclose) h.stopsAt_eq, ih h.tail (Nat.zero_le _), map_or_map]
    rfl

theorem commentLength?_append (h : Detached reach m e) :
    commentLength? reach (m ++ e) =
      (commentLength? reach m).or ((commentLength? reach e).map (· + m.length)) := by
  fun_induction commentLength? reach m with
  | case1 => exact (Option.map_id' (x := _)).symm
  | case2 => rfl
  | case3 c r _ hstop => exact absurd hstop (by simp [h.stopsAt_eq])
  | case4 c r hpair _ ih =>
    have hpair : c = '#' → (r ++ e).head? ≠ some '}' := fun hc =>
      mt h.tail.head?_iff.mp (head?_ne_of_not_pair hpair hc)
    rw [List.cons_append, commentLength?_pass hpair h.stopsAt_eq, ih h.tail, map_or_map]
    rfl

/-- **A region is closed in a text, or else where what follows by itself is closed.** -/
theorem lengthAfterOpener?_append (h : Detached reach m e) :
    lengthAfterOpener? reach form (m ++ e) =
      (lengthAfterOpener? reach form m).or
        ((lengthAfterOpener? reach form e).map (· + m.length)) := by
  cases form with
  | comment => exact commentLength?_append h
  | output => exact expressionLength?_append h (Nat.zero_le _)
  | statement => exact expressionLength?_append h (Nat.zero_le _)

end Detached

end TwigTemplate.Region
