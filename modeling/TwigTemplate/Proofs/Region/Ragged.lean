import TwigTemplate.Proofs.Region.LineEnds

/-!
# Blanks before newlines

How many newlines of a text have blanks before them on their line.  Rows that end with
ink have such newlines inside their regions only, so that every scan of their text
finds at most as many in the regions, and clipping a region takes one away.

* `ragged`: their number; `raggedIn`: that of several texts; `raggedCodes`: that of all
  regions of a row.
* `raggedCodes_le`: **no scan finds more in the regions than stand in the text.**
* `ragged_tell`: and rows without blanks at their ends have them in their regions.
* `raggedCodes_clipSpan`: **a row that clipping changes has fewer afterwards.**
-/

namespace TwigTemplate.Region

open Text (isBlank)

section AtEnd

variable {α : Type} {p : α → Bool} {b : Bool}

/-- What `p` says of the last element, or `b` where there is none. -/
def atEnd (p : α → Bool) (b : Bool) (xs : List α) : Bool :=
  xs.getLast?.elim b p

theorem atEnd_cons (x : α) (xs : List α) : atEnd p b (x :: xs) = atEnd p (p x) xs := by
  cases xs with
  | nil => rfl
  | cons y ys =>
    rw [atEnd, atEnd, List.getLast?_cons_cons, List.getLast?_eq_some_getLast (by simp),
      Option.elim, Option.elim]

theorem atEnd_eq_false {xs : List α} (hne : xs ≠ []) (h : ∀ x ∈ xs.getLast?, p x = false) :
    atEnd p b xs = false := by
  have hlast := List.getLast?_eq_some_getLast hne
  rw [atEnd, hlast, Option.elim, h _ hlast]

end AtEnd

/-! ### Texts -/

/-- A blank that is no newline, so that a newline behind it has blanks before it. -/
def isInner (c : Char) : Bool :=
  isBlank c && c != '\n'

/-- The newlines of a text with blanks before them, where `b` says whether blanks stand
before the text. -/
def raggedAfter (b : Bool) : List Char → Nat
  | [] => 0
  | c :: cs => raggedAfter (isInner c) cs + if b && c == '\n' then 1 else 0

/-- The newlines of a text with blanks before them on their lines. -/
def ragged (cs : List Char) : Nat :=
  raggedAfter false cs

theorem raggedAfter_append (b : Bool) (cs ds : List Char) :
    raggedAfter b (cs ++ ds) = raggedAfter b cs + raggedAfter (atEnd isInner b cs) ds := by
  induction cs generalizing b with
  | nil => exact (Nat.zero_add _).symm
  | cons c cs ih =>
    rw [List.cons_append, raggedAfter, raggedAfter, ih, atEnd_cons]
    omega

theorem isInner_of_ink {c : Char} (hc : isBlank c = false) : isInner c = false := by
  rw [isInner, hc, Bool.false_and]

theorem isInner_of_ne {c : Char} (hc : c ≠ '\n') : isInner c = isBlank c := by
  rw [isInner, bne_iff_ne.mpr hc, Bool.and_true]

theorem ragged_le_raggedAfter (b : Bool) (cs : List Char) : ragged cs ≤ raggedAfter b cs := by
  cases cs with
  | nil => exact Nat.le_refl 0
  | cons c cs =>
    rw [ragged, raggedAfter, raggedAfter, Bool.false_and, if_neg (by simp)]
    exact Nat.le_add_right _ _

theorem raggedAfter_of_ink {c : Char} (hc : isBlank c = false) (b : Bool) (cs : List Char) :
    raggedAfter b (c :: cs) = ragged (c :: cs) := by
  have hne : (c == '\n') = false := by
    rw [beq_eq_false_iff_ne]
    rintro rfl
    exact absurd hc (by decide)
  rw [ragged, raggedAfter, raggedAfter, hne, Bool.and_false, Bool.and_false]

theorem raggedAfter_blank_line {u : List Char} (hu : ∀ c ∈ u, isBlank c = true) (hnl : '\n' ∉ u)
    (hne : u ≠ []) (b : Bool) (rest : List Char) :
    raggedAfter b (u ++ '\n' :: rest) = ragged rest + 1 := by
  induction u generalizing b with
  | nil => exact absurd rfl hne
  | cons c u ih =>
    rw [List.mem_cons, not_or] at hnl
    have hc : (c == '\n') = false := by simpa using Ne.symm hnl.1
    rw [List.cons_append, raggedAfter, hc, Bool.and_false, if_neg (by simp), Nat.add_zero,
      isInner_of_ne (Ne.symm hnl.1), hu c List.mem_cons_self]
    cases u with
    | nil => rfl
    | cons d u =>
      exact ih (fun e he => hu e (List.mem_cons_of_mem _ he)) hnl.2 (by simp) true

/-- **A text that is not flush has one ragged newline less when it is clipped.** -/
theorem ragged_clipLine {cs : List Char} (h : '\n' ∈ cs) :
    clipLine cs = cs ∨ ragged (clipLine cs) < ragged cs := by
  obtain ⟨l, u, rest, hcs, hclip, -, hnl, hu, hl⟩ := exists_clip h
  by_cases hne : u = []
  · left
    rw [hclip, hcs, hne, List.nil_append]
  · right
    have hflush : atEnd isInner false l = false := by
      by_cases hlne : l = []
      · rw [hlne]
        rfl
      · refine atEnd_eq_false hlne fun c hc => isInner_of_ink ?_
        rw [hl, Text.trimEnd_eq_rdropWhile] at hlne hc
        rw [List.getLast?_eq_some_getLast hlne, Option.mem_def, Option.some.injEq] at hc
        rw [← hc, ← Bool.not_eq_true]
        exact List.rdropWhile_last_not isBlank _ hlne
    rw [hclip, hcs, ragged, ragged, raggedAfter_append, raggedAfter_append, hflush,
      raggedAfter_blank_line hu hnl hne, raggedAfter, Bool.false_and, if_neg (by simp)]
    exact Nat.add_lt_add_left (Nat.lt_succ_self _) _

/-! ### Rows -/

/-- The newlines with blanks before them in some texts. -/
def raggedIn : List (List Char) → Nat
  | [] => 0
  | raw :: rest => ragged raw + raggedIn rest

theorem raggedIn_append (as bs : List (List Char)) :
    raggedIn (as ++ bs) = raggedIn as + raggedIn bs := by
  induction as with
  | nil => exact (Nat.zero_add _).symm
  | cons raw as ih => rw [List.cons_append, raggedIn, raggedIn, ih, Nat.add_assoc]

/-- The newlines with blanks before them in the regions of a row. -/
def raggedCodes (ts : List Token) : Nat :=
  raggedIn (codesOf ts)

theorem raggedCodes_append (ts us : List Token) :
    raggedCodes (ts ++ us) = raggedCodes ts + raggedCodes us := by
  rw [raggedCodes, codesOf_append, raggedIn_append, raggedCodes, raggedCodes]

theorem raggedCodes_code_cons (raw : List Char) (ts : List Token) :
    raggedCodes (.code raw :: ts) = ragged raw + raggedCodes ts := rfl

/-- **No more newlines are ragged in the regions of a row than in its text.** -/
theorem raggedCodes_le (b : Bool) (ts : List Token) : raggedCodes ts ≤ raggedAfter b (tell ts) := by
  induction ts generalizing b with
  | nil => exact Nat.le_refl 0
  | cons t ts ih =>
    cases t with
    | char c =>
      rw [tell_char_cons, raggedAfter]
      exact (ih _).trans (Nat.le_add_right _ _)
    | code raw =>
      rw [tell_code_cons, raggedAfter_append, raggedCodes_code_cons]
      exact Nat.add_le_add (ragged_le_raggedAfter b raw) (ih _)

/-- The newlines of a row stand in its regions, and those of its blanks at the end are
left to what follows. -/
theorem raggedAfter_tell {row : List Token} (hrow : Token.newline ∉ row) (hshape : Shaped row)
    (b : Bool) (ds : List Char) :
    raggedAfter b (tell row ++ ds) =
      raggedCodes row + raggedAfter (atEnd Token.isBlank b row) ds := by
  induction row generalizing b with
  | nil => exact (Nat.zero_add _).symm
  | cons t row ih =>
    rw [List.mem_cons, not_or] at hrow
    have hrest := ih hrow.2 hshape.tail t.isBlank
    cases t with
    | char c =>
      have hne : c ≠ '\n' := by
        rintro rfl
        exact hrow.1 rfl
      have hc : (c == '\n') = false := by simpa using hne
      have hblank : isInner c = Token.isBlank (.char c) := isInner_of_ne hne
      rw [tell_char_cons, List.cons_append, raggedAfter, hc, Bool.and_false, if_neg (by simp),
        Nat.add_zero, hblank, hrest, atEnd_cons]
      rfl
    | code raw =>
      obtain ⟨form, inner, rfl⟩ := hshape raw List.mem_cons_self
      have hfirst : ∀ c, raggedAfter c (form.opener ++ (inner ++ form.closer)) =
          ragged (form.opener ++ (inner ++ form.closer)) := fun c =>
        raggedAfter_of_ink (by decide) c _
      have hlast : atEnd isInner b (form.opener ++ (inner ++ form.closer)) = false := by
        refine atEnd_eq_false (by simp [Form.opener]) fun c hc => isInner_of_ink ?_
        rw [← List.append_assoc, getLast?_closer] at hc
        rw [← Option.some.inj hc]
        decide
      have hblank : Token.isBlank (.code (form.opener ++ (inner ++ form.closer))) = false := rfl
      rw [hblank] at hrest
      rw [tell_code_cons, List.append_assoc, raggedAfter_append, hfirst, hlast, hrest, atEnd_cons,
        hblank, raggedCodes_code_cons, Nat.add_assoc]

/-- **Rows without blanks at their ends have their ragged newlines in their regions.** -/
theorem ragged_tell {rs : List (List Token)}
    (hrs : ∀ row ∈ rs, (Token.newline ∉ row ∧ Shaped row) ∧ row.rdropWhile Token.isBlank = row) :
    ragged (tell ([Token.newline].intercalate rs)) =
      raggedCodes ([Token.newline].intercalate rs) := by
  have hends : ∀ row ∈ rs, atEnd Token.isBlank false row = false := by
    intro row hrow
    by_cases hne : row = []
    · rw [hne]
      rfl
    · have hlast := List.rdropWhile_eq_self_iff.mp (hrs row hrow).2 hne
      rw [atEnd, List.getLast?_eq_some_getLast hne, Option.elim, ← Bool.not_eq_true]
      exact hlast
  induction rs with
  | nil => rfl
  | cons row rs ih =>
    obtain ⟨⟨hfree, hshape⟩, -⟩ := hrs row List.mem_cons_self
    have hend := hends row List.mem_cons_self
    by_cases hne : rs = []
    · subst hne
      have hone := raggedAfter_tell hfree hshape false []
      rw [List.append_nil, raggedAfter, Nat.add_zero] at hone
      rw [List.intercalate_singleton, ragged, hone]
    · have hrest := ih (fun r hr => hrs r (List.mem_cons_of_mem _ hr))
        fun r hr => hends r (List.mem_cons_of_mem _ hr)
      have hnl : ∀ cs, raggedAfter false ('\n' :: cs) = ragged cs := fun _ => rfl
      rw [List.intercalate_cons_of_ne_nil hne, List.append_assoc, tell_append, ragged,
        raggedAfter_tell hfree hshape, hend, raggedCodes_append, List.singleton_append,
        Token.newline, tell_char_cons, hnl, ← Token.newline, hrest]
      rfl

/-- **A row that clipping changes has fewer ragged newlines in its regions.** -/
theorem raggedCodes_clipSpan (row : List Token) :
    clipSpan row = row ∨ raggedCodes (clipSpan row) < raggedCodes row := by
  rcases row_cases row with hall | ⟨front, raw, back, rfl, hfront, hraw⟩
  · exact Or.inl (clipSpan_of_oneLine hall)
  · rw [clipSpan_append hfront hraw]
    rcases ragged_clipLine hraw with hclip | hlt
    · exact Or.inl (by rw [hclip])
    · right
      rw [raggedCodes_append, raggedCodes_append, raggedCodes_code_cons, raggedCodes_code_cons]
      omega

end TwigTemplate.Region
