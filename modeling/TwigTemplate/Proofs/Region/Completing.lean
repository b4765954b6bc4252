import TwigTemplate.Proofs.Region.Agreement
import TwigTemplate.Proofs.Region.Quiet
import TwigTemplate.Proofs.Text.Word

/-!
# The end of a line

Code is typed at the end of a line.  What stands before it is cut in the same way whatever is typed:
a word opens nothing, ends nothing and is the partner of no quote.  So a region that is open behind
the word is closed by a closer there.  A statement put behind a line is scanned by itself, or a
region that starts before it takes its opener.

* `Tail`: code at the end of a line, such as a word, or a word and a closer.
* `lengthAfterOpener?_append_tail`: **a tail does not move the closers before it**.
* `pieces_close`: **the open region is closed, and the pieces before it stay**.
* `mem_locate_append`: **a statement behind a line is scanned by itself or loses its opener**.
-/

namespace TwigTemplate.Region

open Text (isBlank isWordChar ne_of_isWordChar)

/-- Code at the end of a line: no literal has its partner in it, and it starts with a word. -/
structure Tail (w : List Char) : Prop where
  code : ∀ c ∈ w, isQuote c = false ∧ c ≠ '\\' ∧ c ≠ '\n'
  word : ∀ c ∈ w.head?, isWordChar c = true

section Tail

variable {w m : List Char}

theorem Tail.head?_ne (hw : Tail w) {d : Char} (hd : isWordChar d = false) : w.head? ≠ some d :=
  fun h => by rw [hw.word d h] at hd; exact absurd hd (by simp)

theorem Tail.not_mem_newline (hw : Tail w) : '\n' ∉ w :=
  fun h => (hw.code _ h).2.2 rfl

theorem Tail.quiet (hw : Tail w) : Quiet w :=
  ⟨fun c hc => (hw.code c hc).1, hw.head?_ne (by decide)⟩

theorem opening?_append_tail (hw : Tail w) (c : Char) :
    Form.opening? (c :: (m ++ w)) = Form.opening? (c :: m) := by
  have hmark : w.head?.bind Form.ofMark? = none := by
    refine Option.bind_eq_none_iff.mpr fun d hd => ?_
    have hne : ∀ {e : Char}, isWordChar e = false → d ≠ e := fun he heq =>
      hw.head?_ne he (heq ▸ hd)
    rw [Form.ofMark?, if_neg (hne (by decide)), if_neg (hne (by decide)), if_neg (hne (by decide))]
  rw [opening?_eq, opening?_eq]
  cases m with
  | nil => rw [List.nil_append, hmark]; rfl
  | cons d m => rfl

/-- **A tail does not move the closers before it.** -/
theorem lengthAfterOpener?_append_tail {form : Form} (hw : Tail w) (hm : '\n' ∉ m) :
    lengthAfterOpener? .line form (m ++ w) =
      (lengthAfterOpener? .line form m).or
        ((lengthAfterOpener? .line form w).map (· + m.length)) :=
  lengthAfterOpener?_append_quiet hw.quiet fun _ => hm

end Tail

/-! ### Words and closers -/

theorem isQuote_of_isWordChar {c : Char} (h : isWordChar c = true) : isQuote c = false := by
  rw [isQuote, decide_eq_false (ne_of_isWordChar h (by decide)),
    decide_eq_false (ne_of_isWordChar h (by decide))]
  rfl

theorem tail_word {w : List Char} (hw : ∀ c ∈ w, isWordChar c = true) : Tail w :=
  ⟨fun c hc => ⟨isQuote_of_isWordChar (hw c hc), ne_of_isWordChar (hw c hc) (by decide),
    ne_of_isWordChar (hw c hc) (by decide)⟩, fun c hc => hw c (List.mem_of_mem_head? hc)⟩

/-- A character that neither hides nor ends anything in an expression. -/
def isPlain (c : Char) : Bool :=
  !isQuote c && c != '}' && c != '%' && c != '\n'

theorem expressionLength?_plain {form : Form} {u : List Char} (hu : ∀ c ∈ u, isPlain c = true)
    (rest : List Char) : expressionLength? .line form 0 (u ++ rest) =
      (expressionLength? .line form 0 rest).map (· + u.length) := by
  induction u with
  | nil => simp
  | cons c u ih =>
    obtain ⟨hc, hu⟩ := List.forall_mem_cons.mp hu
    simp only [isPlain, Bool.and_eq_true, Bool.not_eq_true', bne_iff_ne] at hc
    obtain ⟨⟨⟨hquote, hbrace⟩, hpercent⟩, hnl⟩ := hc
    have hlit : literal? (c :: (u ++ rest)) = none := by
      rw [literal?, hquote]
      rfl
    have hclose : closing? (c :: (u ++ rest)) = none := by
      rw [closing?_eq, if_neg hbrace, if_neg hpercent]
      split <;> rfl
    rw [List.cons_append, expressionLength?_pass hlit hclose (by simpa [Reach.stopsAt] using hnl),
      ih hu, Option.map_map]
    rfl

theorem isPlain_of_isWordChar {c : Char} (h : isWordChar c = true) : isPlain c = true := by
  simp only [isPlain, Bool.and_eq_true, Bool.not_eq_true', bne_iff_ne]
  exact ⟨⟨⟨isQuote_of_isWordChar h, ne_of_isWordChar h (by decide)⟩,
    ne_of_isWordChar h (by decide)⟩, ne_of_isWordChar h (by decide)⟩

theorem isPlain_of_isBlank {c : Char} (h : isBlank c = true) (hnl : c ≠ '\n') :
    isPlain c = true := by
  simp only [isPlain, Bool.and_eq_true, Bool.not_eq_true', bne_iff_ne]
  exact ⟨⟨⟨isQuote_of_isBlank h, ne_of_isBlank h (by decide)⟩, ne_of_isBlank h (by decide)⟩, hnl⟩

/-- Words on a line, with gaps between and behind them. -/
structure Words (u : List Char) : Prop where
  ne_nil : u ≠ []
  starts : ∀ c ∈ u.head?, isWordChar c = true
  chars : ∀ c ∈ u, isWordChar c = true ∨ isBlank c = true ∧ c ≠ '\n'

namespace Words

variable {u : List Char}

theorem of_word (hne : u ≠ []) (hu : ∀ c ∈ u, isWordChar c = true) : Words u :=
  ⟨hne, fun c hc => hu c (List.mem_of_mem_head? hc), fun c hc => Or.inl (hu c hc)⟩

theorem append_gap (hu : Words u) {gap : List Char}
    (hgap : ∀ c ∈ gap, isBlank c = true ∧ c ≠ '\n') : Words (u ++ gap) := by
  refine ⟨by simp [hu.ne_nil], fun c hc => ?_, fun c hc => ?_⟩
  · rw [List.head?_append_of_ne_nil _ hu.ne_nil] at hc
    exact hu.starts c hc
  · exact (List.mem_append.mp hc).elim (hu.chars c) fun hc => Or.inr (hgap c hc)

theorem plain (hu : Words u) : ∀ c ∈ u, isPlain c = true := fun c hc =>
  (hu.chars c hc).elim isPlain_of_isWordChar fun hc => isPlain_of_isBlank hc.1 hc.2

theorem code (hu : Words u) : ∀ c ∈ u, isQuote c = false ∧ c ≠ '\\' ∧ c ≠ '\n' := by
  intro c hc
  rcases hu.chars c hc with hword | ⟨hblank, hnl⟩
  · exact (tail_word (List.forall_mem_singleton.mpr hword)).code c List.mem_cons_self
  · exact ⟨isQuote_of_isBlank hblank, ne_of_isBlank hblank (by decide), hnl⟩

theorem tail_closed (hu : Words u) (form : Form) : Tail (u ++ form.closer) := by
  have hcloser : ∀ c ∈ form.closer, isQuote c = false ∧ c ≠ '\\' ∧ c ≠ '\n' := by
    cases form <;> simp [Form.closer, isQuote]
  refine ⟨fun c hc => (List.mem_append.mp hc).elim (hu.code c) (hcloser c), fun c hc => ?_⟩
  rw [List.head?_append_of_ne_nil _ hu.ne_nil] at hc
  exact hu.starts c hc

end Words

/-- Words can be told from other texts. -/
instance : DecidablePred Words := fun u =>
  decidable_of_iff (u ≠ [] ∧ u.head?.all isWordChar = true ∧
      u.all (fun c => isWordChar c || (isBlank c && c != '\n')) = true) <| by
    constructor
    · rintro ⟨hne, hstarts, hchars⟩
      refine ⟨hne, fun c hc => ?_, fun c hc => ?_⟩
      · rwa [Option.mem_def.mp hc, Option.all_some] at hstarts
      · simpa using List.all_eq_true.mp hchars c hc
    · intro hu
      refine ⟨hu.ne_nil, ?_, List.all_eq_true.mpr fun c hc => by simpa using hu.chars c hc⟩
      rw [Option.all_eq_true]
      exact hu.starts

theorem lengthAfterOpener?_word {w : List Char} (hw : ∀ c ∈ w, isWordChar c = true) (form : Form) :
    lengthAfterOpener? .line form w = none := by
  have hplain : ∀ c ∈ w, isPlain c = true := fun c hc => isPlain_of_isWordChar (hw c hc)
  have hexpression : expressionLength? .line form 0 w = none := by
    rw [← List.append_nil w, expressionLength?_plain hplain, expressionLength?]
    rfl
  cases form with
  | output => exact hexpression
  | statement => exact hexpression
  | comment =>
    show commentLength? .line w = none
    clear hexpression hplain
    induction w with
    | nil => rfl
    | cons c w ih =>
      obtain ⟨hc, hw⟩ := List.forall_mem_cons.mp hw
      have hne : ∀ {d : Char}, isWordChar d = false → c ≠ d := ne_of_isWordChar hc
      rw [commentLength?_pass (fun h => absurd h (hne (by decide)))
        (by simpa [Reach.stopsAt] using hne (by decide)), ih hw]
      rfl

theorem lengthAfterOpener?_closer_of_plain {form : Form} (hform : form ≠ .comment) {u : List Char}
    (hu : ∀ c ∈ u, isPlain c = true) :
    lengthAfterOpener? .line form (u ++ form.closer) = some (u ++ form.closer).length := by
  have hclose : expressionLength? .line form 0 form.closer = some 2 := by
    cases form <;> first | rfl | exact absurd rfl hform
  have h : expressionLength? .line form 0 (u ++ form.closer) = some (u ++ form.closer).length := by
    rw [expressionLength?_plain hu, hclose, List.length_append]
    cases form <;> simp [Form.closer, Nat.add_comm]
  cases form with
  | comment => exact absurd rfl hform
  | output => exact h
  | statement => exact h

/-! ### Closing a region -/

theorem addText_append {c : Char} {ps : List Piece} {p : Piece} (hp : p.kind ≠ .text) :
    Piece.addText c (ps ++ [p]) = Piece.addText c ps ++ [p] := by
  cases ps with
  | nil =>
    obtain ⟨kind, raw⟩ := p
    cases kind with
    | text => exact absurd rfl hp
    | template form => rfl
    | unterminated form => rfl
  | cons q ps =>
    obtain ⟨kind, raw⟩ := q
    cases kind <;> rfl

theorem kind_of_mem_addText {c : Char} {ps : List Piece} (h : ∀ p ∈ ps, p.kind = .text) :
    ∀ p ∈ Piece.addText c ps, p.kind = .text := by
  unfold Piece.addText
  split
  · exact List.forall_mem_cons.mpr ⟨rfl, (List.forall_mem_cons.mp h).2⟩
  · exact List.forall_mem_cons.mpr ⟨rfl, h⟩

theorem kind_of_mem_pieces {reach : Reach} {cs : List Char} (h : '{' ∉ cs) :
    ∀ p ∈ pieces reach cs, p.kind = .text := by
  induction cs with
  | nil =>
    rw [pieces]
    exact fun p hp => absurd hp List.not_mem_nil
  | cons c cs ih =>
    rw [List.mem_cons, not_or] at h
    rw [pieces_char (by rw [opening?_eq, if_neg (Ne.symm h.1)])]
    exact kind_of_mem_addText (ih h.2)

section Close

variable {form : Form} {body back w e : List Char}

theorem pieces_code_tail (he : Tail e) (hline : '\n' ∉ body ++ back)
    (hlen : lengthAfterOpener? .line form (body ++ back) = some body.length) :
    pieces .line (form.opener ++ (body ++ back) ++ e) =
      ⟨.template form, form.opener ++ body⟩ :: pieces .line (back ++ e) := by
  have hstay : lengthAfterOpener? .line form (body ++ (back ++ e)) = some body.length := by
    rw [← List.append_assoc, lengthAfterOpener?_append_tail he hline, hlen]
    rfl
  rw [List.append_assoc, List.append_assoc, pieces_code hstay]

theorem pieces_leftOpen_word (hw : ∀ c ∈ w, isWordChar c = true) (hbody : '\n' ∉ body)
    (hlen : lengthAfterOpener? .line form body = none) :
    pieces .line (form.opener ++ (body ++ w)) =
      [⟨.unterminated form, form.opener ++ (body ++ w)⟩] := by
  have htail := tail_word hw
  refine pieces_leftOpen_last
    (fun hmem => (List.mem_append.mp hmem).elim hbody htail.not_mem_newline) ?_
  rw [lengthAfterOpener?_append_tail htail hbody, hlen, lengthAfterOpener?_word hw]
  rfl

/-- A region that is open before a tail ends with the closer of the tail. -/
theorem pieces_leftOpen_tail (he : Tail e) (hbody : '\n' ∉ body)
    (hclose : lengthAfterOpener? .line form e = some e.length)
    (hlen : lengthAfterOpener? .line form body = none) :
    pieces .line (form.opener ++ (body ++ e)) =
      [⟨.template form, form.opener ++ (body ++ e)⟩] := by
  apply pieces_code_last
  rw [lengthAfterOpener?_append_tail he hbody, hlen, hclose, List.length_append, Nat.add_comm]
  rfl

/-- **The region that is open behind a word is closed by a closer there**, and the pieces before it
stay as they are. -/
theorem pieces_close {m raw : List Char} {ps : List Piece} (hm : '\n' ∉ m)
    (hw : ∀ c ∈ w, isWordChar c = true) (he : Tail e)
    (hclose : lengthAfterOpener? .line form e = some e.length)
    (hcut : pieces .line (m ++ w) = ps ++ [⟨.unterminated form, raw⟩]) :
    ∃ code, raw = form.opener ++ (code ++ w) ∧
      pieces .line (m ++ e) = ps ++ [⟨.template form, form.opener ++ (code ++ e)⟩] := by
  have htail := tail_word hw
  induction m using pieces_induction .line generalizing ps with
  | nil =>
    have hbrace : '{' ∉ w := fun hmem => ne_of_isWordChar (hw _ hmem) (by decide) rfl
    have hopen : ⟨.unterminated form, raw⟩ ∈ pieces .line w :=
      hcut ▸ List.mem_append_right _ List.mem_cons_self
    exact absurd (kind_of_mem_pieces hbrace _ hopen) (by simp)
  | char c m hopen ih =>
    rw [List.mem_cons, not_or] at hm
    rw [List.cons_append, pieces_char ((opening?_append_tail htail c).trans hopen)] at hcut
    obtain ⟨front, hfront, rfl⟩ := exists_of_addText_eq (by simp) hcut
    obtain ⟨code, hraw, hpieces⟩ := ih hm.2 hfront
    refine ⟨code, hraw, ?_⟩
    rw [List.cons_append, pieces_char ((opening?_append_tail he c).trans hopen), hpieces,
      addText_append (by simp)]
  | code other body back hlen ih =>
    rw [List.mem_append, not_or] at hm
    rw [pieces_code_tail htail hm.2 hlen] at hcut
    cases ps with
    | nil => exact absurd (List.cons.inj hcut).1 (by simp)
    | cons p ps =>
      obtain ⟨rfl, hrest⟩ := List.cons.inj hcut
      obtain ⟨code, hraw, hpieces⟩ :=
        ih (fun hmem => hm.2 (List.mem_append_right _ hmem)) hrest
      refine ⟨code, hraw, ?_⟩
      rw [pieces_code_tail he hm.2 hlen, hpieces]
      rfl
  | leftOpen other body back hbody hback hlen =>
    rw [List.mem_append, not_or] at hm
    obtain rfl := eq_nil_of_line hback fun hmem => hm.2 (List.mem_append_right _ hmem)
    rw [List.append_nil] at hcut hlen ⊢
    rw [List.append_assoc, pieces_leftOpen_word hw hbody hlen, ← List.nil_append [_]] at hcut
    obtain ⟨rfl, hlast⟩ := List.append_inj' hcut rfl
    obtain ⟨hform, rfl⟩ := Piece.mk.inj (List.cons.inj hlast).1
    obtain rfl : other = form := Kind.unterminated.inj hform
    refine ⟨body, rfl, ?_⟩
    rw [List.append_assoc, pieces_leftOpen_tail he hbody hclose hlen, List.nil_append]

end Close

theorem exists_eq_opener_append {reach : Reach} {cs : List Char} {form : Form} :
    ∀ p ∈ pieces reach cs, p.kind = .unterminated form → ∃ inner, p.raw = form.opener ++ inner := by
  intro p hp hkind
  obtain ⟨text, back, hcode⟩ := exists_cutsCode_of_mem hp (by simp [hkind])
  cases hcode with
  | code => exact absurd hkind (by simp)
  | leftOpen =>
    obtain rfl := Kind.unterminated.inj hkind
    exact ⟨_, rfl⟩

/-! ### A statement behind a line -/

theorem mem_locate_addText {c : Char} {ps : List Piece} {start : Point} {r : Region}
    (h : r ∈ locate start (Piece.addText c ps)) :
    r.start = start ∨ r ∈ locate (start.step c) ps := by
  unfold Piece.addText at h
  split at h
  · rcases List.mem_cons.mp h with rfl | h
    · exact Or.inl rfl
    · exact Or.inr (List.mem_cons_of_mem _ h)
  · rcases List.mem_cons.mp h with rfl | h
    · exact Or.inl rfl
    · exact Or.inr h

theorem column_lt_of_start {m : List Char} {start : Point} {r : Region} (h : r.start = start)
    (hm : m ≠ []) : r.column < start.column + m.length := by
  have hpos := List.length_pos_iff.mpr hm
  rw [column, h]
  omega

/-- A region of a line that a statement is put behind: it starts before the statement, is plain text,
or is what the statement is scanned to by itself. -/
def Beside (start : Point) (m y : List Char) (r : Region) : Prop :=
  r.column < start.column + m.length ∨ r.kind = .text ∨
    r ∈ locate (start.advance m) (pieces .line y)

theorem Beside.append {start : Point} {u m y : List Char} {r : Region} (hu : '\n' ∉ u)
    (h : Beside (start.advance u) m y r) : Beside start (u ++ m) y r := by
  rw [Beside, Point.advance_append]
  refine h.imp_left fun hr => ?_
  rw [Point.advance_column hu] at hr
  rw [List.length_append]
  omega

theorem kind_of_mem_locate {reach : Reach} {start : Point} {cs : List Char} (h : '{' ∉ cs) :
    ∀ r ∈ locate start (pieces reach cs), r.kind = .text := by
  intro r hr
  have hpiece : piece r ∈ pieces reach cs := by
    rw [← map_piece_locate start (pieces reach cs)]
    exact List.mem_map_of_mem hr
  exact kind_of_mem_pieces h _ hpiece

/-- **A statement behind a line is scanned by itself**, unless a region that starts before it takes
its opener: what is left of the statement is plain text then. -/
theorem mem_locate_append {m y : List Char} (hm : '\n' ∉ m) (hy : '\n' ∉ y)
    (hbrace : '{' ∉ y.drop 1) {start : Point} :
    ∀ r ∈ locate start (pieces .line (m ++ y)), Beside start m y r := by
  generalize hcs : m ++ y = cs
  induction cs using pieces_induction .line generalizing m start with
  | nil =>
    rw [pieces]
    exact fun r hr => absurd hr List.not_mem_nil
  | char c cs hopen ih =>
    intro r hr
    cases m with
    | nil =>
      obtain rfl : y = c :: cs := hcs
      exact Or.inr (Or.inr hr)
    | cons d m =>
      obtain ⟨rfl, htail⟩ := List.cons.inj hcs
      rw [List.mem_cons, not_or] at hm
      rw [pieces_char hopen] at hr
      rcases mem_locate_addText hr with hr | hr
      · exact Or.inl (column_lt_of_start hr (by simp))
      · have hd : '\n' ∉ [d] := fun hmem => hm.1 (List.mem_singleton.mp hmem)
        exact Beside.append hd (ih hm.2 htail r hr)
  | code form body back hlen ih =>
    intro r hr
    by_cases hne : m = []
    · subst hne
      obtain rfl : y = form.opener ++ (body ++ back) := hcs
      exact Or.inr (Or.inr hr)
    rw [pieces_code hlen] at hr
    rcases List.mem_cons.mp hr with rfl | hr
    · exact Or.inl (column_lt_of_start rfl hne)
    rw [← List.append_assoc] at hcs
    rcases List.append_eq_append_iff.mp hcs with ⟨rest, hfront, rfl⟩ | ⟨rest, rfl, hback⟩
    · cases rest with
      | nil =>
        rw [hfront, List.append_nil] at hr
        exact Or.inr (Or.inr hr)
      | cons d rest =>
        -- The region ends inside the statement, and nothing opens behind its first brace.
        exact Or.inr (Or.inl (kind_of_mem_locate
          (fun hmem => hbrace (List.mem_append_right _ hmem)) r hr))
    · rw [List.mem_append, not_or] at hm
      exact Beside.append hm.1 (ih hm.2 hback.symm r hr)
  | leftOpen form body back hbody hback hlen =>
    intro r hr
    by_cases hne : m = []
    · subst hne
      obtain rfl : y = form.opener ++ (body ++ back) := hcs
      exact Or.inr (Or.inr hr)
    have hfree : '\n' ∉ back := fun hmem => by
      have hmem : '\n' ∈ m ++ y := by simp [hcs, hmem]
      exact (List.mem_append.mp hmem).elim hm hy
    obtain rfl := eq_nil_of_line hback hfree
    rw [pieces_leftOpen hbody hback hlen, pieces] at hr
    obtain rfl := List.mem_singleton.mp hr
    exact Or.inl (column_lt_of_start rfl hne)

end TwigTemplate.Region
