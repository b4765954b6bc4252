import Mathlib.Order.WellFounded
import TwigTemplate.Proofs.Region.Agreement
import TwigTemplate.Proofs.Region.Quoted

/-!
# The closers of a text

Behind an opener and the marker that it takes along, a region ends with the first closer in its
reach.  In a comment that is the first `#}`.  In an output or a statement it has to stand outside
of literals, where a reader comes who takes every literal as a whole and any other character by
itself.  The search for a closer takes two more characters at once: the pair that closes the
other form.  A statement loses nothing by that, as no pair ends in `%`, but `%}` takes the first
brace of a `}}` behind a `%` along.

* `Reads`, `Outside`: the reader, and a closer that the reader comes to.
* `Closes`, `lengthAfterOpener?_eq_some_iff`: **the search finds the first closer that counts**,
  which for an output is one outside of literals that does not stand behind `%`.
* `EndsAt`, `EachRegion`: where a region ends, for all regions of a form in both scans of a text.
* `endsAt_closes`: **every region ends with the first closer that counts for its form**.
* `statement_comment_ends`: statements and comments end with the first closer in reach.
* `output_ends_iff`: **an output does exactly when no `%` stands before this closer**.
-/

namespace TwigTemplate.Region

/-! ### Outside of literals -/

/-- A reader of `front ++ rest`, who takes every literal as a whole and any other character by
itself, comes to `rest`. -/
inductive Reads : List Char → List Char → Prop
  | nil (rest : List Char) : Reads [] rest
  | literal {q : Char} {inner front rest : List Char} : Quoted q inner → Reads front rest →
      Reads (q :: (inner ++ q :: front)) rest
  | char {c : Char} {front rest : List Char} : ¬ StartsLiteral (c :: (front ++ rest)) →
      Reads front rest → Reads (c :: front) rest

/-- The closer stands behind `front`. -/
def Behind (closer cs front : List Char) : Prop :=
  ∃ rest, cs = front ++ (closer ++ rest)

/-- The closer stands behind `front`, outside of literals. -/
def Outside (closer cs front : List Char) : Prop :=
  ∃ rest, cs = front ++ (closer ++ rest) ∧ Reads front (closer ++ rest)

theorem Outside.behind {closer cs front : List Char} (h : Outside closer cs front) :
    Behind closer cs front :=
  have ⟨rest, hcut, _⟩ := h
  ⟨rest, hcut⟩

/-- The shortest text of which something holds. -/
structure IsFirst (p : List Char → Prop) (front : List Char) : Prop where
  holds : p front
  least : ∀ other, p other → front.length ≤ other.length

/-- Only a closer of an output is overlooked, and only behind `%`. -/
def Overlooked (form : Form) (front : List Char) : Prop :=
  form = .output ∧ front.getLast? = some '%'

theorem not_startsLiteral {c : Char} (hc : isQuote c = false) (r : List Char) :
    ¬ StartsLiteral (c :: r) := fun h => by
  rw [h.isQuote] at hc
  exact absurd hc (by simp)

theorem Reads.tail {c : Char} {front rest : List Char} (h : Reads (c :: front) rest)
    (hc : isQuote c = false) : Reads front rest := by
  cases h with
  | literal hquoted _ =>
    rw [hquoted.isQuote] at hc
    exact absurd hc (by simp)
  | char _ h => exact h

theorem Overlooked.append {form : Form} {front : List Char} (h : Overlooked form front)
    (w : List Char) : Overlooked form (w ++ front) :=
  ⟨h.1, by rw [List.getLast?_append, h.2]; rfl⟩

theorem Overlooked.of_append {form : Form} {w front : List Char} (h : Overlooked form (w ++ front))
    (hw : w.getLast? ≠ some '%') : Overlooked form front := by
  refine ⟨h.1, ?_⟩
  have hlast := h.2
  rw [List.getLast?_append] at hlast
  cases hfront : front.getLast? with
  | none =>
    rw [hfront] at hlast
    exact absurd hlast hw
  | some d => rwa [hfront] at hlast

/-! ### Expressions -/

section Expressions

variable {form : Form} {cs : List Char}

theorem closing?_closer (hform : form ≠ .comment) (rest : List Char) :
    closing? (form.closer ++ rest) = some form := by
  cases form with
  | comment => exact absurd rfl hform
  | output => rfl
  | statement => rfl

theorem isQuote_of_mem_closer (form : Form) : ∀ c ∈ form.closer, isQuote c = false := by
  have hall : form.closer.all (!isQuote ·) = true := by cases form <;> rfl
  exact fun c hc => by simpa using List.all_eq_true.mp hall c hc

/-- **Only `%` takes the first brace of a closer along.** -/
theorem eq_percent_of_closing? {c : Char} {rest : List Char} {other : Form}
    (hform : form ≠ .comment) (h : closing? (c :: (form.closer ++ rest)) = some other)
    (hother : other ≠ form) : form = .output ∧ c = '%' := by
  obtain ⟨tail, htail⟩ := exists_pair h
  cases form with
  | comment => exact absurd rfl hform
  | statement => exact absurd (List.cons.inj htail).1 (by decide)
  | output =>
    obtain ⟨_, hcut, hcomment⟩ := eq_of_closing? h
    cases other with
    | comment => exact absurd rfl hcomment
    | output => exact absurd rfl hother
    | statement => exact ⟨rfl, (List.cons.inj hcut).1⟩

theorem drop_quoted (q : Char) (inner rest : List Char) :
    (q :: (inner ++ q :: rest)).drop (inner.length + 2) = rest := by
  rw [List.drop_succ_cons, ← List.drop_drop, List.drop_left]
  rfl

theorem expressionLength?_quoted {q : Char} {inner : List Char} (h : Quoted q inner)
    (rest : List Char) :
    expressionLength? .document form 0 (q :: (inner ++ q :: rest)) =
      (expressionLength? .document form 0 rest).map (· + (inner.length + 2)) := by
  rw [expressionLength?_past_literal (literal?_of_quoted h rest), drop_quoted]

/-- **The search stops at a closer outside of literals**, which it does not overlook. -/
theorem outside_of_expressionLength? {n : Nat}
    (h : expressionLength? .document form 0 cs = some n) :
    ∃ front, Outside form.closer cs front ∧ ¬ Overlooked form front ∧ n = front.length + 2 := by
  induction cs using expression_induction form generalizing n with
  | nil => exact absurd h (by simp [expressionLength?])
  | literal c cs k hlit ih =>
    obtain ⟨q, inner, rest, hcut, hquoted, rfl⟩ := exists_quoted_of_literal? hlit
    obtain ⟨rfl, rfl⟩ := List.cons.inj hcut
    rw [drop_quoted] at ih
    rw [expressionLength?_quoted hquoted] at h
    obtain ⟨m, hm, rfl⟩ := Option.map_eq_some_iff.mp h
    obtain ⟨front, ⟨tail, rfl, hreads⟩, hseen, rfl⟩ := ih hm
    have hquote : c ≠ '%' := by
      rintro rfl
      exact absurd hquoted.isQuote (by decide)
    have hfront : c :: (inner ++ c :: front) = (c :: (inner ++ [c])) ++ front := by simp
    refine ⟨c :: (inner ++ c :: front), ⟨tail, by simp, .literal hquoted hreads⟩,
      fun hover => hseen ?_, by simp; omega⟩
    rw [hfront] at hover
    exact hover.of_append (by rw [← List.cons_append, List.getLast?_concat]; simpa using hquote)
  | close c cs hlit hclose =>
    rw [expressionLength?_close hlit hclose] at h
    obtain ⟨rest, hcut, -⟩ := eq_of_closing? hclose
    exact ⟨[], ⟨rest, hcut, .nil _⟩, fun hover => absurd hover.2 (by simp),
      (Option.some.inj h).symm⟩
  | pair c cs other hlit hclose hother ih =>
    rw [expressionLength?_past_pair hlit hclose hother] at h
    obtain ⟨m, hm, rfl⟩ := Option.map_eq_some_iff.mp h
    obtain ⟨front, ⟨tail, rfl, hreads⟩, hseen, rfl⟩ := ih hm
    exact ⟨c :: '}' :: front,
      ⟨tail, rfl, .char (literal?_eq_none_iff.mp hlit) (.char (not_startsLiteral rfl _) hreads)⟩,
      fun hover => hseen (hover.of_append (w := [c, '}']) (by simp)), rfl⟩
  | char c cs hlit hclose ih =>
    rw [expressionLength?_char hlit hclose] at h
    obtain ⟨m, hm, rfl⟩ := Option.map_eq_some_iff.mp h
    obtain ⟨front, ⟨tail, rfl, hreads⟩, hseen, rfl⟩ := ih hm
    refine ⟨c :: front, ⟨tail, rfl, .char (literal?_eq_none_iff.mp hlit) hreads⟩,
      fun hover => ?_, rfl⟩
    cases front with
    | nil =>
      -- A `%` right before the closer would be read as a pair.
      obtain ⟨rfl, hlast⟩ := hover
      obtain rfl := Option.some.inj hlast
      exact absurd hclose (by simp [Form.closer, closing?])
    | cons d front =>
      exact hseen ⟨hover.1, by rw [← hover.2, List.getLast?_cons_cons]⟩

/-- **No closer outside of literals is passed**, unless it is overlooked. -/
theorem expressionLength?_le (hform : form ≠ .comment) {front rest : List Char}
    (h : Reads front (form.closer ++ rest)) (hseen : ¬ Overlooked form front) :
    ∃ n ≤ front.length + 2,
      expressionLength? .document form 0 (front ++ (form.closer ++ rest)) = some n := by
  generalize hlength : front.length = l
  induction l using Nat.strongRecOn generalizing front with
  | ind l ih =>
    cases h with
    | nil =>
      have hclose := closing?_closer hform rest
      obtain ⟨c, r, hcut⟩ := List.exists_cons_of_ne_nil
        (show form.closer ++ rest ≠ [] by cases form <;> simp [Form.closer])
      rw [List.nil_append]
      rw [hcut] at hclose ⊢
      have hlit := literal?_eq_none_iff.mpr (not_startsLiteral (isQuote_of_closing? hclose) r)
      exact ⟨2, by omega, expressionLength?_close hlit hclose⟩
    | @literal q inner front _ hquoted hreads =>
      have hseen' : ¬ Overlooked form front := fun hover =>
        hseen (by simpa using hover.append (q :: (inner ++ [q])))
      obtain ⟨n, hn, hlen⟩ := ih front.length (by rw [← hlength]; simp; omega) hreads hseen' rfl
      refine ⟨n + (inner.length + 2), by rw [← hlength]; simp; omega, ?_⟩
      rw [List.cons_append, List.append_assoc, List.cons_append, expressionLength?_quoted hquoted,
        hlen]
      rfl
    | @char c front _ hnone hreads =>
      have hlit := literal?_eq_none_iff.mpr hnone
      rw [List.cons_append]
      rw [List.length_cons] at hlength
      cases hclose : closing? (c :: (front ++ (form.closer ++ rest))) with
      | some other =>
        by_cases hother : other = form
        · subst hother
          exact ⟨2, by omega, expressionLength?_close hlit hclose⟩
        obtain ⟨tail, htail⟩ := exists_pair hclose
        cases front with
        | nil =>
          obtain ⟨rfl, rfl⟩ := eq_percent_of_closing? hform hclose hother
          exact absurd ⟨rfl, rfl⟩ hseen
        | cons d front =>
          obtain rfl := (List.cons.inj htail).1
          rw [List.cons_append] at hlit hclose ⊢
          have hseen' : ¬ Overlooked form front := fun hover => hseen (hover.append [c, '}'])
          rw [List.length_cons] at hlength
          obtain ⟨n, hn, hlen⟩ := ih front.length (by omega) (hreads.tail rfl) hseen' rfl
          refine ⟨n + 2, by omega, ?_⟩
          rw [expressionLength?_past_pair hlit hclose hother, hlen]
          rfl
      | none =>
        have hseen' : ¬ Overlooked form front := fun hover => hseen (hover.append [c])
        obtain ⟨n, hn, hlen⟩ := ih front.length (by omega) hreads hseen' rfl
        refine ⟨n + 1, by omega, ?_⟩
        rw [expressionLength?_char hlit hclose, hlen]
        rfl

end Expressions

/-! ### The closer that counts -/

/-- Behind `front` stands a closer that ends a region of this form. -/
def Closes : Form → List Char → List Char → Prop
  | .output => fun cs front => Outside Form.output.closer cs front ∧ front.getLast? ≠ some '%'
  | .statement => Outside Form.statement.closer
  | .comment => Behind Form.comment.closer

theorem closes_iff {form : Form} (hform : form ≠ .comment) {cs front : List Char} :
    Closes form cs front ↔ Outside form.closer cs front ∧ ¬ Overlooked form front := by
  cases form with
  | comment => exact absurd rfl hform
  | output => exact and_congr_right fun _ => not_congr ⟨fun h => ⟨rfl, h⟩, And.right⟩
  | statement => exact ⟨fun h => ⟨h, fun hover => absurd hover.1 (by decide)⟩, And.left⟩

theorem Closes.behind {form : Form} {cs front : List Char} (h : Closes form cs front) :
    Behind form.closer cs front := by
  cases form with
  | comment => exact h
  | output => exact h.1.behind
  | statement => exact Outside.behind h

theorem commentLength?_le {front rest : List Char} :
    ∃ n ≤ front.length + 2,
      commentLength? .document (front ++ (Form.comment.closer ++ rest)) = some n := by
  induction front with
  | nil => exact ⟨2, Nat.le_refl 2, commentLength?_close rest⟩
  | cons c front ih =>
    rw [List.cons_append]
    by_cases hpair : c = '#' → (front ++ (Form.comment.closer ++ rest)).head? ≠ some '}'
    · obtain ⟨n, hn, hlen⟩ := ih
      refine ⟨n + 1, Nat.succ_le_succ hn, ?_⟩
      rw [commentLength?_char hpair, hlen]
      rfl
    · push Not at hpair
      obtain ⟨rfl, hhead⟩ := hpair
      obtain ⟨tail, htail⟩ := List.head?_eq_some_iff.mp hhead
      exact ⟨2, Nat.le_add_left 2 _, by rw [htail]; exact commentLength?_close tail⟩

section Lengths

variable {form : Form} {cs : List Char} {n : Nat}

theorem closes_of_lengthAfterOpener? (h : lengthAfterOpener? .document form cs = some n) :
    ∃ front, Closes form cs front ∧ n = front.length + 2 := by
  by_cases hform : form = .comment
  · subst hform
    obtain ⟨front, rest, hcut, hn⟩ := commentLength?_closer h
    exact ⟨front, ⟨rest, hcut⟩, hn⟩
  · rw [lengthAfterOpener?_expression hform] at h
    obtain ⟨front, hout, hseen, hn⟩ := outside_of_expressionLength? h
    exact ⟨front, (closes_iff hform).mpr ⟨hout, hseen⟩, hn⟩

theorem lengthAfterOpener?_le {front : List Char} (h : Closes form cs front) :
    ∃ n ≤ front.length + 2, lengthAfterOpener? .document form cs = some n := by
  by_cases hform : form = .comment
  · subst hform
    obtain ⟨rest, rfl⟩ := h
    exact commentLength?_le
  · obtain ⟨⟨rest, rfl, hreads⟩, hseen⟩ := (closes_iff hform).mp h
    rw [lengthAfterOpener?_expression hform]
    exact expressionLength?_le hform hreads hseen

/-- **The search finds the first closer that counts.** -/
theorem lengthAfterOpener?_eq_some_iff :
    lengthAfterOpener? .document form cs = some n ↔
      ∃ front, IsFirst (Closes form cs) front ∧ n = front.length + 2 := by
  constructor
  · intro h
    obtain ⟨front, hcloses, hn⟩ := closes_of_lengthAfterOpener? h
    refine ⟨front, ⟨hcloses, fun other hother => ?_⟩, hn⟩
    obtain ⟨m, hm, hlen⟩ := lengthAfterOpener?_le hother
    obtain rfl := Option.some.inj (h.symm.trans hlen)
    omega
  · rintro ⟨front, ⟨hcloses, hleast⟩, rfl⟩
    obtain ⟨m, hm, hlen⟩ := lengthAfterOpener?_le hcloses
    obtain ⟨other, hother, rfl⟩ := closes_of_lengthAfterOpener? hlen
    have hle := hleast other hother
    rw [hlen]
    exact congrArg some (by omega)

/-- It finds one wherever there is one. -/
theorem exists_lengthAfterOpener?_iff :
    (∃ n, lengthAfterOpener? .document form cs = some n) ↔ ∃ front, Closes form cs front := by
  constructor
  · rintro ⟨n, h⟩
    obtain ⟨front, hcloses, -⟩ := closes_of_lengthAfterOpener? h
    exact ⟨front, hcloses⟩
  · rintro ⟨front, h⟩
    obtain ⟨n, -, hlen⟩ := lengthAfterOpener?_le h
    exact ⟨n, hlen⟩

end Lengths

/-! ### Reach and markers -/

/-- What an opener in front of the text reaches: the rest of its line, or of the text. -/
def within : Reach → List Char → List Char
  | .line, cs => cs.takeWhile (· ≠ '\n')
  | .document, cs => cs

/-- **A search that stays on its line is a search of the rest of the line.** -/
theorem lengthAfterOpener?_within (reach : Reach) (form : Form) (cs : List Char) :
    lengthAfterOpener? reach form cs = lengthAfterOpener? .document form (within reach cs) := by
  cases reach with
  | document => rfl
  | line =>
    have hline : '\n' ∉ cs.takeWhile (· ≠ '\n') := fun hmem => by
      simpa using List.mem_takeWhile_imp hmem
    -- What follows the line is nothing or starts with a newline, at which the search stops.
    have hcut : lengthAfterOpener? .line form cs =
        lengthAfterOpener? .line form (cs.takeWhile (· ≠ '\n')) := by
      conv_lhs => rw [← List.takeWhile_append_dropWhile (p := (· ≠ '\n')) (l := cs)]
      cases hrest : cs.dropWhile (· ≠ '\n') with
      | nil => rw [List.append_nil]
      | cons c rest =>
        have hhead : c ∈ (cs.dropWhile (· ≠ '\n')).head? := by
          rw [hrest]
          rfl
        obtain rfl := head?_dropWhile_newline hhead
        exact lengthAfterOpener?_append_end _ (Or.inl rfl) hline rest
    rw [hcut, within]
    cases hlen : lengthAfterOpener? .document form (cs.takeWhile (· ≠ '\n')) with
    | none => exact lengthAfterOpener?_line_none hlen
    | some n => exact lengthAfterOpener?_onLine hlen fun hmem => hline (List.mem_of_mem_take hmem)

theorem isQuote_of_isMarker {c : Char} (hc : isMarker c = true) : isQuote c = false := by
  rw [isMarker, Bool.or_eq_true, decide_eq_true_eq, decide_eq_true_eq] at hc
  rcases hc with rfl | rfl <;> decide

theorem lengthAfterOpener?_marker {reach : Reach} {form : Form} {c : Char}
    (hc : isMarker c = true) (r : List Char) :
    lengthAfterOpener? reach form (c :: r) = (lengthAfterOpener? reach form r).map (· + 1) := by
  have hc : c = '-' ∨ c = '~' := by simpa [isMarker] using hc
  have hstop : reach.stopsAt c = false := by
    rcases hc with rfl | rfl <;> simp [Reach.stopsAt]
  have hlit : literal? (c :: r) = none := by
    rcases hc with rfl | rfl <;> rfl
  have hclose : closing? (c :: r) = none := by
    rcases hc with rfl | rfl <;> rfl
  have hhash : c = '#' → r.head? ≠ some '}' := by
    rcases hc with rfl | rfl <;> exact fun h => absurd h (by decide)
  cases form with
  | comment => exact commentLength?_pass hhash hstop
  | output => exact expressionLength?_pass hlit hclose hstop
  | statement => exact expressionLength?_pass hlit hclose hstop

theorem dropMarker_cases (cs : List Char) :
    dropMarker cs = cs ∨ ∃ c, isMarker c = true ∧ cs = c :: dropMarker cs := by
  cases cs with
  | nil => exact Or.inl rfl
  | cons c r =>
    by_cases hc : isMarker c = true
    · exact Or.inr ⟨c, hc, by simp [dropMarker, hc]⟩
    · exact Or.inl (by simp [dropMarker, hc])

theorem length_sub_dropMarker {c : Char} {cs : List Char} (h : cs = c :: dropMarker cs) :
    cs.length - (dropMarker cs).length = 1 := by
  have hlength := congrArg List.length h
  rw [List.length_cons] at hlength
  omega

/-- **A marker behind the opener is no part of a closer.** -/
theorem lengthAfterOpener?_dropMarker (reach : Reach) (form : Form) (cs : List Char) :
    lengthAfterOpener? reach form cs =
      (lengthAfterOpener? reach form (dropMarker cs)).map
        (· + (cs.length - (dropMarker cs).length)) := by
  rcases dropMarker_cases cs with hcs | ⟨c, hc, hcs⟩
  · rw [hcs, Nat.sub_self]
    exact (Option.map_id' (x := _)).symm
  · rw [length_sub_dropMarker hcs, ← lengthAfterOpener?_marker hc, ← hcs]

theorem drop_dropMarker (cs : List Char) (n : Nat) :
    cs.drop (n + (cs.length - (dropMarker cs).length)) = (dropMarker cs).drop n := by
  rcases dropMarker_cases cs with hcs | ⟨c, -, hcs⟩
  · rw [hcs, Nat.sub_self, Nat.add_zero]
  · rw [length_sub_dropMarker hcs]
    conv_lhs => rw [hcs]
    rfl

/-! ### Where regions end -/

/-- The region of this form that `body` follows the opener of ends with the first closer for which
`p` holds: it is closed if there is one in reach, and `after` is what follows then. -/
structure EndsAt (p : List Char → List Char → Prop) (reach : Reach) (form : Form) (r : Region)
    (body after : List Char) : Prop where
  closed : r.kind = .template form ↔ ∃ front, p (within reach (dropMarker body)) front
  stops : r.kind = .template form → ∃ front,
    IsFirst (p (within reach (dropMarker body))) front ∧
      dropMarker body = front ++ (form.closer ++ after)

/-- The two scans of a text: as one line, whichever it is, or as a document. -/
inductive Scanned (cs : List Char) : Reach → List Region → Prop
  | line (line : Nat) : Scanned cs .line (ofLine cs line)
  | document : Scanned cs .document (ofDocument cs)

/-- The regions of a scan are its pieces. -/
theorem Scanned.pieces_eq {cs : List Char} {reach : Reach} {rs : List Region}
    (h : Scanned cs reach rs) : pieces reach cs = rs.map piece := by
  cases h with
  | line line => exact (map_piece_locate _ _).symm
  | document => exact (map_piece_locate _ _).symm

/-- Something holds of every region of this form, closed or not, in both scans of a text, with the
text behind its opener and the text behind the region. -/
def EachRegion (form : Form) (cs : List Char)
    (holds : Reach → Region → List Char → List Char → Prop) : Prop :=
  ∀ reach before r after, Scanned cs reach (before ++ r :: after) →
    r.kind = .template form ∨ r.kind = .unterminated form →
    ∃ body, r.raw ++ after.flatMap (·.raw) = form.opener ++ body ∧
      holds reach r body (after.flatMap (·.raw))

theorem EachRegion.imp {form : Form} {cs : List Char}
    {p q : Reach → Region → List Char → List Char → Prop} (h : EachRegion form cs p)
    (himp : ∀ reach r body after, p reach r body after → q reach r body after) :
    EachRegion form cs q := fun reach before r after hscan hkind =>
  have ⟨body, hbody, hp⟩ := h reach before r after hscan hkind
  ⟨body, hbody, himp reach r body _ hp⟩

/-- **A piece of code starts with its opener**, is closed if the search finds a closer, and stops
there. -/
theorem code_of_pieces {reach : Reach} {cs : List Char} {before after : List Piece} {p : Piece}
    {form : Form} (hcut : pieces reach cs = before ++ p :: after)
    (hkind : p.kind = .template form ∨ p.kind = .unterminated form) :
    ∃ body, p.raw ++ spell after = form.opener ++ body ∧
      (p.kind = .template form ↔ ∃ n, lengthAfterOpener? reach form body = some n) ∧
      ∀ n, lengthAfterOpener? reach form body = some n → spell after = body.drop n := by
  have htext : p.kind ≠ .text := by
    rcases hkind with hkind | hkind <;> simp [hkind]
  obtain ⟨text, back, hcode, rfl⟩ := exists_cutsCode hcut htext
  rw [spell_pieces]
  cases hcode with
  | @code other body back hlen =>
    obtain rfl : other = form := by simpa using hkind
    refine ⟨body ++ back, List.append_assoc .., ⟨fun _ => ⟨_, hlen⟩, fun _ => rfl⟩, fun m hm => ?_⟩
    obtain rfl := Option.some.inj (hlen.symm.trans hm)
    exact (List.drop_left).symm
  | @leftOpen other body back hbody hback hlen =>
    obtain rfl : other = form := by simpa using hkind
    refine ⟨body ++ back, List.append_assoc .., ⟨fun h => absurd h (by simp), ?_⟩, fun m hm => ?_⟩
    · rintro ⟨n, hn⟩
      exact absurd (hlen.symm.trans hn) (by simp)
    · exact absurd (hlen.symm.trans hm) (by simp)

theorem exists_eq_within_append (reach : Reach) (cs : List Char) :
    ∃ more, cs = within reach cs ++ more := by
  cases reach with
  | line => exact ⟨cs.dropWhile (· ≠ '\n'), (List.takeWhile_append_dropWhile).symm⟩
  | document => exact ⟨[], (List.append_nil cs).symm⟩

/-- What `code_of_pieces` says of a piece is what it means to end with the first closer that
counts. -/
theorem endsAt_of_length {reach : Reach} {form : Form} {r : Region} {body after : List Char}
    (hclosed : r.kind = .template form ↔ ∃ n, lengthAfterOpener? reach form body = some n)
    (hstops : ∀ n, lengthAfterOpener? reach form body = some n → after = body.drop n) :
    EndsAt (Closes form) reach form r body after := by
  have hmarker := lengthAfterOpener?_dropMarker reach form body
  rw [lengthAfterOpener?_within reach form (dropMarker body)] at hmarker
  rw [hmarker] at hclosed hstops
  refine ⟨?_, fun hkind => ?_⟩
  · rw [hclosed, ← exists_lengthAfterOpener?_iff]
    constructor
    · rintro ⟨n, hn⟩
      obtain ⟨m, hm, -⟩ := Option.map_eq_some_iff.mp hn
      exact ⟨m, hm⟩
    · rintro ⟨m, hm⟩
      exact ⟨_, by rw [hm]; rfl⟩
  · obtain ⟨n, hn⟩ := hclosed.mp hkind
    have hafter := hstops n hn
    obtain ⟨m, hm, rfl⟩ := Option.map_eq_some_iff.mp hn
    obtain ⟨front, hfirst, rfl⟩ := lengthAfterOpener?_eq_some_iff.mp hm
    refine ⟨front, hfirst, ?_⟩
    obtain ⟨rest, hrest⟩ := hfirst.holds.behind
    obtain ⟨more, hmore⟩ := exists_eq_within_append reach (dropMarker body)
    rw [hrest, List.append_assoc, List.append_assoc] at hmore
    have hlength : (front ++ form.closer).length = front.length + 2 := by
      rw [List.length_append]
      cases form <;> rfl
    rw [drop_dropMarker, hmore, ← List.append_assoc, ← hlength, List.drop_left] at hafter
    rw [hafter, hmore]

/-- **Every region ends with the first closer that counts for its form.** -/
theorem endsAt_closes (form : Form) (cs : List Char) :
    EachRegion form cs fun reach r body after => EndsAt (Closes form) reach form r body after := by
  intro reach before r after hscan hkind
  have hcut : pieces reach cs = before.map piece ++ piece r :: after.map piece := by
    rw [hscan.pieces_eq, List.map_append, List.map_cons]
  obtain ⟨body, hbody, hclosed, hstops⟩ := code_of_pieces hcut hkind
  rw [flatMap_raw_eq_spell]
  exact ⟨body, hbody, endsAt_of_length hclosed hstops⟩

/-- **Statements and comments end with the first closer in reach**: a statement with the first one
outside of literals, a comment with the first one there is. -/
theorem statement_comment_ends (cs : List Char) :
    (EachRegion .statement cs fun reach r body after =>
      EndsAt (Outside Form.statement.closer) reach .statement r body after) ∧
    EachRegion .comment cs fun reach r body after =>
      EndsAt (Behind Form.comment.closer) reach .comment r body after :=
  ⟨endsAt_closes .statement cs, endsAt_closes .comment cs⟩

/-! ### Outputs -/

theorem exists_isFirst {p : List Char → Prop} (h : ∃ front, p front) :
    ∃ front, IsFirst p front := by
  obtain ⟨front, hfront, hleast⟩ := (measure List.length).wf.has_min {front | p front} h
  exact ⟨front, hfront, fun other hother => Nat.le_of_not_lt (hleast other hother)⟩

theorem eq_of_isFirst {p : List Char → Prop} {closer cs a b : List Char}
    (hp : ∀ front, p front → Behind closer cs front) (ha : IsFirst p a) (hb : IsFirst p b) :
    a = b := by
  obtain ⟨_, ha'⟩ := hp a ha.holds
  obtain ⟨_, hb'⟩ := hp b hb.holds
  exact (List.append_inj (ha'.symm.trans hb')
    (Nat.le_antisymm (ha.least b hb.holds) (hb.least a ha.holds))).1

/-- **An output ends with the first closer outside of literals exactly when no `%` stands right
before it.**  If one does, the search goes on behind this closer. -/
theorem output_ends_iff (cs : List Char) :
    EachRegion .output cs fun reach r body after =>
      EndsAt (Closes .output) reach .output r body after ∧
      (EndsAt (Outside Form.output.closer) reach .output r body after ↔
        ∀ front, IsFirst (Outside Form.output.closer (within reach (dropMarker body))) front →
          front.getLast? ≠ some '%') := by
  refine (endsAt_closes .output cs).imp fun reach r body after hends => ⟨hends, ?_⟩
  constructor
  · intro houtside front hfirst
    have hkind := houtside.closed.mpr ⟨front, hfirst.holds⟩
    obtain ⟨a, ha, hacut⟩ := houtside.stops hkind
    obtain ⟨b, hb, hbcut⟩ := hends.stops hkind
    obtain rfl : front = a := eq_of_isFirst (fun _ => Outside.behind) hfirst ha
    obtain rfl : front = b := List.append_cancel_right (hacut.symm.trans hbcut)
    exact hb.holds.2
  · intro hclear
    have hfirst : ∀ front,
        IsFirst (Outside Form.output.closer (within reach (dropMarker body))) front →
          IsFirst (Closes .output (within reach (dropMarker body))) front := fun front h =>
      ⟨⟨h.holds, hclear front h⟩, fun other hother => h.least other hother.1⟩
    refine ⟨hends.closed.trans ⟨fun ⟨front, h⟩ => ⟨front, h.1⟩, fun h => ?_⟩, fun hkind => ?_⟩
    · obtain ⟨front, h⟩ := exists_isFirst h
      exact ⟨front, (hfirst front h).holds⟩
    · obtain ⟨b, hb, hbcut⟩ := hends.stops hkind
      obtain ⟨a, ha⟩ := exists_isFirst ⟨b, hb.holds.1⟩
      obtain rfl : a = b := eq_of_isFirst (fun _ => Closes.behind) (hfirst a ha) hb
      exact ⟨a, ha, hbcut⟩

/-- The closer of this output stands behind `%`: neither scan takes it. -/
theorem output_open_percent :
    Outside Form.output.closer " a %\x7d\x7d".toList " a %".toList ∧
      ofLine "\x7b\x7b a %\x7d\x7d".toList 1 =
        [⟨.unterminated .output, ⟨1, 1, 0⟩, ⟨1, 9, 8⟩, "\x7b\x7b a %\x7d\x7d".toList⟩] ∧
      ofDocument "\x7b\x7b a %\x7d\x7d".toList =
        [⟨.unterminated .output, ⟨1, 1, 0⟩, ⟨1, 9, 8⟩, "\x7b\x7b a %\x7d\x7d".toList⟩] ∧
      ¬ EachRegion .output "\x7b\x7b a %\x7d\x7d".toList fun reach r body after =>
        EndsAt (Outside Form.output.closer) reach .output r body after := by
  have hplain : ∀ {c : Char} {front rest : List Char}, isQuote c = false → Reads front rest →
      Reads (c :: front) rest := fun hc => .char (not_startsLiteral hc _)
  have houtside : Outside Form.output.closer " a %\x7d\x7d".toList " a %".toList :=
    ⟨[], rfl, hplain rfl (hplain rfl (hplain rfl (hplain rfl (.nil _))))⟩
  have hscan : ofDocument "\x7b\x7b a %\x7d\x7d".toList =
      [⟨.unterminated .output, ⟨1, 1, 0⟩, ⟨1, 9, 8⟩, "\x7b\x7b a %\x7d\x7d".toList⟩] := by
    decide +kernel
  refine ⟨houtside, by decide +kernel, hscan, fun h => ?_⟩
  have hdocument : Scanned "\x7b\x7b a %\x7d\x7d".toList .document _ := .document
  rw [hscan] at hdocument
  obtain ⟨body, hbody, hends⟩ := h .document [] _ [] hdocument (Or.inr rfl)
  have hbody : Form.output.opener ++ " a %\x7d\x7d".toList = Form.output.opener ++ body := hbody
  obtain rfl := List.append_cancel_left hbody
  exact absurd (hends.closed.mpr ⟨_, houtside⟩) (by simp)

end TwigTemplate.Region
