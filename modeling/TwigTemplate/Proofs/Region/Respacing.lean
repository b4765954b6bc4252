import TwigTemplate.Proofs.Region.Search
import TwigTemplate.Proofs.Text.Respacing

/-!
# Closers are found whatever the blanks

The search for a closer reads quotes, backslashes and braces, and knows blanks
only as places where nothing happens.  A backslash takes the blank after it along,
and a newline ends a literal; neither changes when blanks stand for blanks and
newlines for newlines.

* `literalRest?_respaced_escape`, `expressionLength?_respaced`, `commentLength?_respaced`:
  the three searches.
* `lengthAfterOpener?_respaced`: **a region ends at the same place in a respaced
  text**.
-/

namespace TwigTemplate.Region

open Text (isBlank solid Gap Respaced RespacedBy Inner Matches FoundAlike)

/-! ### Literals -/

theorem ne_of_isBlank {c d : Char} (hc : isBlank c = true) (hd : isBlank d = false) : c ≠ d := by
  rintro rfl
  rw [hc] at hd
  exact absurd hd (by simp)

theorem isBlank_of_isQuote {q : Char} (hq : isQuote q = true) : isBlank q = false := by
  rw [isQuote, Bool.or_eq_true, decide_eq_true_eq, decide_eq_true_eq] at hq
  rcases hq with rfl | rfl
  · decide
  · decide

section Literals

variable {q : Char}

theorem literalRest?_gap (hq : isQuote q = true) {u : List Char}
    (hu : ∀ c ∈ u, isBlank c = true) (hnl : '\n' ∉ u) (cs : List Char) :
    literalRest? q (u ++ cs) = (literalRest? q cs).map (· + u.length) := by
  induction u with
  | nil =>
    rw [List.nil_append]
    cases literalRest? q cs <;> rfl
  | cons c u ih =>
    rw [List.mem_cons, not_or] at hnl
    have hc := hu c List.mem_cons_self
    rw [List.cons_append, literalRest?_char (ne_of_isBlank hc (by decide)) (Ne.symm hnl.1)
      (ne_of_isBlank hc (isBlank_of_isQuote hq)),
      ih (fun d hd => hu d (List.mem_cons_of_mem _ hd)) hnl.2, option_map_add, List.length_cons]

theorem literalRest?_line (hq : isQuote q = true) {u : List Char}
    (hu : ∀ c ∈ u, isBlank c = true) (hnl : '\n' ∈ u) (cs : List Char) :
    literalRest? q (u ++ cs) = none := by
  induction u with
  | nil => simp at hnl
  | cons c u ih =>
    have hc := hu c List.mem_cons_self
    by_cases he : c = '\n'
    · rw [he]
      exact literalRest?_newline q _
    · rw [List.cons_append, literalRest?_char (ne_of_isBlank hc (by decide)) he
        (ne_of_isBlank hc (isBlank_of_isQuote hq)),
        ih (fun d hd => hu d (List.mem_cons_of_mem _ hd))
          ((List.mem_cons.mp hnl).resolve_left fun h => he h.symm)]
      rfl

theorem literalRest?_blank (hq : isQuote q = true) {u : List Char}
    (hu : ∀ c ∈ u, isBlank c = true) : literalRest? q u = none := by
  rw [← List.append_nil u]
  by_cases hnl : '\n' ∈ u
  · exact literalRest?_line hq hu hnl []
  · rw [literalRest?_gap hq hu hnl]
    rfl

theorem literalRest?_backslash (hq : isQuote q = true) {cs : List Char}
    (hcs : ∀ c ∈ cs.head?, isBlank c = true) :
    literalRest? q ('\\' :: cs) = (literalRest? q cs).map (· + 1) := by
  cases cs with
  | nil => rfl
  | cons c cs =>
    have hc := hcs c rfl
    by_cases hnl : c = '\n'
    · subst hnl
      rw [literalRest?_escape_newline, literalRest?_newline]
      rfl
    · rw [literalRest?_escape hnl, literalRest?_char (ne_of_isBlank hc (by decide)) hnl
        (ne_of_isBlank hc (isBlank_of_isQuote hq)), option_map_add]

/-- **A literal is closed at the same place in a respaced text**, and so it is when a backslash
stands before both texts. -/
theorem literalRest?_respaced_escape (hq : isQuote q = true) {cs ds : List Char}
    (h : Respaced cs ds) :
    FoundAlike cs ds (literalRest? q cs) (literalRest? q ds) ∧
      FoundAlike ('\\' :: cs) ('\\' :: ds) (literalRest? q ('\\' :: cs))
        (literalRest? q ('\\' :: ds)) := by
  -- What a backslash takes along decides, so both are carried through the text.
  induction h with
  | blank hcs _ =>
    rw [literalRest?_backslash hq fun c hc => hcs c (List.mem_of_mem_head? hc),
      literalRest?_blank hq hcs]
    exact ⟨.of_none, .of_none⟩
  | @gap u v xs ys hgap _ ih =>
    have hfound : FoundAlike (u ++ xs) (v ++ ys) (literalRest? q (u ++ xs))
        (literalRest? q (v ++ ys)) := by
      by_cases hnl : '\n' ∈ u
      · rw [literalRest?_line hq hgap.left hnl]
        exact .of_none
      · rw [literalRest?_gap hq hgap.left hnl,
          literalRest?_gap hq hgap.right (mt hgap.newline.mpr hnl)]
        exact ih.1.map (Matches.gap hgap)
    refine ⟨hfound, ?_⟩
    rw [literalRest?_backslash hq hgap.head_left, literalRest?_backslash hq hgap.head_right]
    exact hfound.map Matches.cons
  | @same c d xs ys hc _ hcd hrest ih =>
    subst hcd
    have hnl : c ≠ '\n' := (ne_of_isBlank (by decide) hc).symm
    refine ⟨?_, ?_⟩
    · by_cases hslash : c = '\\'
      · rw [hslash]
        exact ih.2
      by_cases hclose : c = q
      · rw [hclose, literalRest?_close hq, literalRest?_close hq]
        exact .of_some (Matches.start hrest).cons
      · rw [literalRest?_char hslash hnl hclose, literalRest?_char hslash hnl hclose]
        exact ih.1.map Matches.cons
    · rw [literalRest?_escape hnl, literalRest?_escape hnl]
      exact ih.1.map fun hmatch => hmatch.cons.cons

/-- A quote opens a literal in both texts or in neither. -/
theorem literal?_respaced {cs ds : List Char} (h : Respaced cs ds) (c : Char) :
    FoundAlike (c :: cs) (c :: ds) (literal? (c :: cs)) (literal? (c :: ds)) := by
  rw [literal?, literal?]
  split
  · next hq => exact (literalRest?_respaced_escape hq h).1.map Matches.cons
  · exact .of_none

theorem literal?_of_isBlank {c : Char} (hc : isBlank c = true) (cs : List Char) :
    literal? (c :: cs) = none := by
  rw [literal?, if_neg]
  intro hq
  rw [isBlank_of_isQuote hq] at hc
  exact absurd hc (by simp)

end Literals

/-! ### Pairs of characters -/

theorem head?_respaced {cs ds : List Char} (h : Respaced cs ds) {c : Char}
    (hc : isBlank c = false) (hcs : cs.head? = some c) : ds.head? = some c := by
  obtain ⟨cs, rfl⟩ := List.head?_eq_some_iff.mp hcs
  obtain ⟨e, ys, rfl, -, rfl, -⟩ := h.cons_left hc
  rfl

theorem closing?_respaced {cs ds : List Char} (h : Respaced cs ds) (c : Char) :
    closing? (c :: ds) = closing? (c :: cs) := by
  have hiff : ds.head? = some '}' ↔ cs.head? = some '}' :=
    ⟨head?_respaced (Text.respaced_symm h) (by decide), head?_respaced h (by decide)⟩
  rw [closing?_eq, closing?_eq]
  simp only [hiff]

theorem closing?_of_isBlank {c : Char} (hc : isBlank c = true) (cs : List Char) :
    closing? (c :: cs) = none := by
  rw [closing?_eq]
  rw [if_neg (ne_of_isBlank hc (by decide)), if_neg (ne_of_isBlank hc (by decide))]
  split <;> rfl

/-! ### Expressions -/

section Expressions

variable {form : Form}

theorem expressionLength?_gap {u : List Char} (hu : ∀ c ∈ u, isBlank c = true) (cs : List Char) :
    expressionLength? .document form 0 (u ++ cs) =
      (expressionLength? .document form 0 cs).map (· + u.length) := by
  induction u with
  | nil =>
    rw [List.nil_append]
    cases expressionLength? .document form 0 cs <;> rfl
  | cons c u ih =>
    have hc := hu c List.mem_cons_self
    rw [List.cons_append, expressionLength?_char (literal?_of_isBlank hc _)
      (closing?_of_isBlank hc _), ih fun d hd => hu d (List.mem_cons_of_mem _ hd), option_map_add,
      List.length_cons]

theorem expressionLength?_blank {u : List Char} (hu : ∀ c ∈ u, isBlank c = true) :
    expressionLength? .document form 0 u = none := by
  rw [← List.append_nil u, expressionLength?_gap hu, expressionLength?]
  rfl

/-- **An expression is closed at the same place in a respaced text.** -/
theorem expressionLength?_respaced {cs ds : List Char} (h : Respaced cs ds) :
    FoundAlike cs ds (expressionLength? .document form 0 cs)
      (expressionLength? .document form 0 ds) := by
  -- A literal is taken as a whole, so the induction is on the length of the text.
  induction hlen : cs.length using Nat.strong_induction_on generalizing cs ds with
  | _ l ih =>
    subst hlen
    cases h with
    | blank hcs _ =>
      rw [expressionLength?_blank hcs]
      exact .of_none
    | @gap u v xs ys hgap hrest =>
      have hpos := List.length_pos_iff.mpr hgap.left_ne_nil
      rw [expressionLength?_gap hgap.left, expressionLength?_gap hgap.right]
      exact (ih _ (by rw [List.length_append]; omega) hrest rfl).map (Matches.gap hgap)
    | @same c d xs ys _ _ hcd hrest =>
      subst hcd
      cases hlit : literal? (c :: xs) with
      | some k =>
        obtain ⟨k', hlit', hmatch⟩ := literal?_respaced hrest c k hlit
        have htwo := (literal?_bound hlit).1
        rw [expressionLength?_past_literal hlit, expressionLength?_past_literal hlit']
        exact (ih _ (by rw [List.length_drop, List.length_cons]; omega) hmatch.2 rfl).map
          hmatch.trans
      | none =>
        have hlit' : literal? (c :: ys) = none :=
          (literal?_respaced (Text.respaced_symm hrest) c).eq_none hlit
        have hclose' := closing?_respaced hrest c
        cases hclose : closing? (c :: xs) with
        | none =>
          rw [hclose] at hclose'
          rw [expressionLength?_char hlit hclose, expressionLength?_char hlit' hclose']
          exact (ih _ (by simp) hrest rfl).map Matches.cons
        | some other =>
          rw [hclose] at hclose'
          obtain ⟨xs, rfl⟩ := exists_pair hclose
          obtain ⟨e, ys, rfl, -, rfl, hafter⟩ := hrest.cons_left (by decide)
          by_cases hother : other = form
          · subst hother
            rw [expressionLength?_close hlit hclose, expressionLength?_close hlit' hclose']
            exact .of_some (Matches.start hafter).cons.cons
          · rw [expressionLength?_past_pair hlit hclose hother,
              expressionLength?_past_pair hlit' hclose' hother]
            exact (ih _ (by simp only [List.length_cons]; omega) hafter rfl).map
              fun hmatch => hmatch.cons.cons

end Expressions

/-! ### Comments -/

theorem commentLength?_gap {u : List Char} (hu : ∀ c ∈ u, isBlank c = true) (cs : List Char) :
    commentLength? .document (u ++ cs) = (commentLength? .document cs).map (· + u.length) := by
  induction u with
  | nil =>
    rw [List.nil_append]
    cases commentLength? .document cs <;> rfl
  | cons c u ih =>
    have hc := hu c List.mem_cons_self
    rw [List.cons_append, commentLength?_char fun he => absurd he (ne_of_isBlank hc (by decide)),
      ih fun d hd => hu d (List.mem_cons_of_mem _ hd), option_map_add, List.length_cons]

theorem commentLength?_blank {u : List Char} (hu : ∀ c ∈ u, isBlank c = true) :
    commentLength? .document u = none := by
  rw [← List.append_nil u, commentLength?_gap hu, commentLength?]
  rfl

/-- **A comment is closed at the same place in a respaced text.** -/
theorem commentLength?_respaced {cs ds : List Char} (h : Respaced cs ds) :
    FoundAlike cs ds (commentLength? .document cs) (commentLength? .document ds) := by
  induction h with
  | blank hcs _ =>
    rw [commentLength?_blank hcs]
    exact .of_none
  | gap hgap _ ih =>
    rw [commentLength?_gap hgap.left, commentLength?_gap hgap.right]
    exact ih.map (Matches.gap hgap)
  | @same c d xs ys hc _ hcd hrest ih =>
    subst hcd
    by_cases hpair : c = '#' ∧ xs.head? = some '}'
    · obtain ⟨rfl, hbrace⟩ := hpair
      obtain ⟨xs, rfl⟩ := List.head?_eq_some_iff.mp hbrace
      obtain ⟨e, ys, rfl, -, rfl, hafter⟩ := RespacedBy.cons_left hrest (by decide)
      rw [commentLength?_close, commentLength?_close]
      exact .of_some (Matches.start hafter).cons.cons
    · rw [commentLength?_char fun hc hx => hpair ⟨hc, hx⟩, commentLength?_char fun hc hy =>
        hpair ⟨hc, head?_respaced (Text.respaced_symm hrest) (by decide) hy⟩]
      exact ih.map Matches.cons

/-! ### Regions -/

theorem lengthAfterOpener?_foundAlike {form : Form} {cs ds : List Char} (h : Respaced cs ds) :
    FoundAlike cs ds (lengthAfterOpener? .document form cs)
      (lengthAfterOpener? .document form ds) := by
  cases form with
  | comment => exact commentLength?_respaced h
  | output => exact expressionLength?_respaced h
  | statement => exact expressionLength?_respaced h

theorem lengthAfterOpener?_none {form : Form} {cs ds : List Char} (h : Respaced cs ds)
    (hn : lengthAfterOpener? .document form cs = none) :
    lengthAfterOpener? .document form ds = none :=
  (lengthAfterOpener?_foundAlike (Text.respaced_symm h)).eq_none hn

theorem getLast?_closer (inner : List Char) (form : Form) :
    (inner ++ form.closer).getLast? = some '}' := by
  cases form <;> simp [Form.closer]

/-- **A region ends at the same place in a respaced text.** -/
theorem lengthAfterOpener?_respaced {form : Form} {a b cs ds : List Char} (hab : Inner a b)
    (hb : ∀ c ∈ b.getLast?, isBlank c = false) (hrest : Respaced cs ds)
    (hn : lengthAfterOpener? .document form (a ++ cs) = some a.length) :
    lengthAfterOpener? .document form (b ++ ds) = some b.length := by
  obtain ⟨m, hm, hsolid, -⟩ := lengthAfterOpener?_foundAlike (hab cs ds hrest) _ hn
  obtain ⟨inner, rest, hcut, rfl⟩ := lengthAfterOpener?_closer hm
  have hlen : inner.length + 2 = (inner ++ form.closer).length := by
    cases form <;> simp [Form.closer]
  have htake : (b ++ ds).take (inner.length + 2) = inner ++ form.closer := by
    rw [hcut, ← List.append_assoc, hlen, List.take_left]
  rw [htake, List.take_left, hab.solid_eq] at hsolid
  have hfront : inner ++ form.closer = b := by
    apply Text.eq_of_solid_eq (r := rest) (s := ds) _ hsolid.symm _ hb
    · rw [List.append_assoc]
      exact hcut.symm
    · intro c hc
      rw [getLast?_closer] at hc
      obtain rfl := Option.some.inj hc
      decide
  rw [hm, hlen, hfront]

end TwigTemplate.Region
