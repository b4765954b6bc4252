import TwigTemplate.Completion.Items
import TwigTemplate.Proofs.Literal
import TwigTemplate.Proofs.Region.Completing
import TwigTemplate.Proofs.Region.Framing

/-!
# What the context of a cursor says about its line

A context is told by the mask of the open code.  After a pipe no literal is open, and at the start
of a statement there is none at all, so the line ends with the code as it stands and the word being
typed.

* `Typing`: a line that ends with an open region, cut into its parts.
* `exists_typing_filter`, `exists_typing_tag`: **the parts of a line whose context is a filter or a
  tag**.
* `Typing.trailingWord_eq`: the word being typed ends the line.
* `Typing.pieces_accept`: **other words and a closer complete the region, and it alone**.
-/

namespace TwigTemplate.Completion

open Region (Piece Frame framed pieces spell isMarker dropMarker)
open Text (isBlank isWordChar)
open Literal (after)

/-! ### Contexts of code -/

theorem isQuote_of_mem {b w : List Char} (hb : ∀ c ∈ b, isBlank c = true)
    (hw : ∀ c ∈ w, isWordChar c = true) : ∀ c ∈ b ++ w, Region.isQuote c = false := fun c hc =>
  (List.mem_append.mp hc).elim (fun hc => Region.isQuote_of_isBlank (hb c hc))
    fun hc => Region.isQuote_of_isWordChar (hw c hc)

/-- What the context is told by: the mask of the code, without its last word and the blanks before
that. -/
theorem exists_mask_eq (code : List Char) : ∃ b w, (∀ c ∈ b, isBlank c = true) ∧
    (∀ c ∈ w, isWordChar c = true) ∧ Literal.mask code =
      Text.trimEnd (Text.trailingWord (Literal.mask code)).1 ++ (b ++ w) := by
  obtain ⟨b, hcut, hb⟩ :=
    Text.exists_eq_rdropWhile_append isBlank (Text.trailingWord (Literal.mask code)).1
  refine ⟨b, (Text.trailingWord (Literal.mask code)).2, hb,
    Text.isWordChar_of_mem_trailingWord, ?_⟩
  rw [Text.trimEnd_eq_rdropWhile, ← List.append_assoc, ← hcut, Text.trailingWord_append]

/-- **In the context of a filter** the code has a pipe outside of literals, and behind it blanks and
a word. -/
theorem exists_of_contextOfCode_filter {form : Form} {code : List Char}
    (h : contextOfCode form code = .filter) : ∃ p b w, code = p ++ '|' :: (b ++ w) ∧
      after .outside p = .outside ∧ (∀ c ∈ b, isBlank c = true) ∧ ∀ c ∈ w, isWordChar c = true := by
  obtain ⟨b, w, hb, hw, hmask⟩ := exists_mask_eq code
  have hpipe : endsWithPipe (Text.trimEnd (Text.trailingWord (Literal.mask code)).1) = true := by
    by_contra hpipe
    rw [contextOfCode] at h
    simp only [if_neg hpipe] at h
    split at h
    · exact absurd h (by simp)
    · split at h
      · exact absurd h (by simp)
      · split at h <;> exact absurd h (by simp)
  rw [endsWithPipe, decide_eq_true_eq] at hpipe
  obtain ⟨u, hu⟩ := List.getLast?_eq_some_iff.mp hpipe
  rw [hu, List.append_assoc, List.singleton_append] at hmask
  obtain ⟨p, q, rfl, hp, hq⟩ :=
    Literal.exists_of_maskFrom_eq (s := .outside) (by decide) rfl trivial hmask
  obtain rfl := Literal.eq_of_maskFrom_outside (isQuote_of_mem hb hw) hq
  exact ⟨p, b, w, rfl, hp, hb, hw⟩

/-- **In the context of a tag** a statement holds blanks and a word. -/
theorem exists_of_contextOfCode_tag {form : Form} {code : List Char}
    (h : contextOfCode form code = .tag) : form = .statement ∧ ∃ b w, code = b ++ w ∧
      (∀ c ∈ b, isBlank c = true) ∧ ∀ c ∈ w, isWordChar c = true := by
  obtain ⟨b, w, hb, hw, hmask⟩ := exists_mask_eq code
  have hempty : form = .statement ∧
      (Text.trimEnd (Text.trailingWord (Literal.mask code)).1).isEmpty = true := by
    rw [contextOfCode] at h
    dsimp only at h
    split at h
    · exact absurd h (by simp)
    · split at h
      · exact absurd h (by simp)
      · split at h
        · next htag => simpa using htag
        · split at h <;> exact absurd h (by simp)
  obtain ⟨hform, hempty⟩ := hempty
  rw [List.isEmpty_iff.mp hempty, List.nil_append] at hmask
  exact ⟨hform, b, w, Literal.eq_of_maskFrom_outside (isQuote_of_mem hb hw) hmask, hb, hw⟩

/-! ### Lines -/

/-- A line that ends with an open region: the pieces before it, the marker at its opener, its code
and the word that is being typed. -/
structure Typing (line : List Char) (form : Form) (before : List Piece)
    (left code word : List Char) : Prop where
  cut : pieces .line line =
    before ++ [⟨.unterminated form, form.opener ++ (left ++ (code ++ word))⟩]
  inCode : form ≠ .comment
  marked : left = [] ∧ (code ++ word).head?.any isMarker = false ∨ ∃ c, isMarker c ∧ left = [c]
  isWord : ∀ c ∈ word, isWordChar c = true
  ends : ∀ c ∈ code.getLast?, isWordChar c = false

/-- The open region at the end of a line. -/
theorem exists_of_openCode? {line code : List Char} {form : Form}
    (h : openCode? line = some (form, code)) : form ≠ .comment ∧ ∃ before left,
      pieces .line line = before ++ [⟨.unterminated form, form.opener ++ (left ++ code)⟩] ∧
      (left = [] ∧ code.head?.any isMarker = false ∨ ∃ c, isMarker c ∧ left = [c]) := by
  obtain ⟨raw, hform, hlast, hcode⟩ : ∃ raw, form ≠ .comment ∧
      (pieces .line line).getLast? = some ⟨.unterminated form, raw⟩ ∧
      dropMarker (raw.drop 2) = code := by
    rw [openCode?] at h
    split at h
    · next raw hlast =>
      obtain ⟨rfl, hcode⟩ := Prod.mk.inj (Option.some.inj h)
      exact ⟨raw, by simp, hlast, hcode⟩
    · next raw hlast =>
      obtain ⟨rfl, hcode⟩ := Prod.mk.inj (Option.some.inj h)
      exact ⟨raw, by simp, hlast, hcode⟩
    · exact absurd h (by simp)
  obtain ⟨before, hbefore⟩ := List.getLast?_eq_some_iff.mp hlast
  obtain ⟨inner, hinner⟩ := Region.exists_eq_opener_append _
    (hbefore ▸ List.mem_append_right _ List.mem_cons_self : _ ∈ pieces .line line) rfl
  have hinner : raw = form.opener ++ inner := hinner
  have hdrop : raw.drop 2 = inner := by
    rw [hinner]
    rfl
  rw [hdrop] at hcode
  refine ⟨hform, before, ?_⟩
  rcases Region.dropMarker_eq inner with ⟨hfree, hsame⟩ | ⟨c, hc, hcut⟩
  · obtain rfl : inner = code := hsame.symm.trans hcode
    exact ⟨[], by rw [hbefore, hinner]; rfl, Or.inl ⟨rfl, hfree⟩⟩
  · refine ⟨[c], ?_, Or.inr ⟨c, hc, rfl⟩⟩
    rw [hbefore, hinner, hcut, hcode]
    rfl

theorem openCode?_of_contextAt {line : List Char} (h : contextAt line ≠ .outside) :
    ∃ form code, openCode? line = some (form, code) ∧ contextAt line = contextOfCode form code := by
  cases hopen : openCode? line with
  | none => exact absurd (by rw [contextAt, hopen]) h
  | some open? => exact ⟨open?.1, open?.2, rfl, by rw [contextAt, hopen]⟩

theorem getLast?_append_of {p : Char → Prop} {m n : List Char} (hm : ∀ c ∈ m.getLast?, p c)
    (hn : ∀ c ∈ n.getLast?, p c) : ∀ c ∈ (m ++ n).getLast?, p c := by
  intro c hc
  rw [List.getLast?_append, Option.mem_def, Option.or_eq_some_iff] at hc
  rcases hc with hc | ⟨-, hc⟩
  · exact hn c hc
  · exact hm c hc

theorem not_isMarker_of_isWordChar {c : Char} (hc : isWordChar c = true) : isMarker c = false := by
  rw [isMarker, Bool.or_eq_false_iff, decide_eq_false_iff_not, decide_eq_false_iff_not]
  exact ⟨Text.ne_of_isWordChar hc (by decide), Text.ne_of_isWordChar hc (by decide)⟩

theorem isWordChar_of_getLast?_blank {b : List Char} (hb : ∀ c ∈ b, isBlank c = true) :
    ∀ c ∈ b.getLast?, isWordChar c = false :=
  fun c hc => Text.isWordChar_of_isBlank (hb c (List.mem_of_mem_getLast? hc))

/-- **The parts of a line whose context is a filter.** -/
theorem exists_typing_filter {line : List Char} (h : contextAt line = .filter) :
    ∃ form before left p b w, Typing line form before left (p ++ '|' :: b) w ∧
      openCode? line = some (form, p ++ '|' :: (b ++ w)) ∧ after .outside p = .outside ∧
      ∀ c ∈ b, isBlank c = true := by
  obtain ⟨form, code, hopen, hcontext⟩ :=
    openCode?_of_contextAt (by rw [h]; simp)
  obtain ⟨p, b, w, rfl, hp, hb, hw⟩ := exists_of_contextOfCode_filter (hcontext.symm.trans h)
  obtain ⟨hform, before, left, hcut, hleft⟩ := exists_of_openCode? hopen
  refine ⟨form, before, left, p, b, w, ⟨?_, hform, ?_, hw, ?_⟩, hopen, hp, hb⟩
  · rwa [List.append_assoc, List.cons_append]
  · rwa [List.append_assoc, List.cons_append]
  · have hpipe : ∀ c ∈ (p ++ ['|']).getLast?, isWordChar c = false := fun c hc => by
      obtain rfl : '|' = c := by simpa using hc
      rfl
    have hlast := getLast?_append_of hpipe (isWordChar_of_getLast?_blank hb)
    rwa [List.append_assoc] at hlast

/-- **The parts of a line whose context is a tag.** -/
theorem exists_typing_tag {line : List Char} (h : contextAt line = .tag) :
    ∃ before left b w, Typing line .statement before left b w ∧
      openCode? line = some (.statement, b ++ w) ∧ ∀ c ∈ b, isBlank c = true := by
  obtain ⟨form, code, hopen, hcontext⟩ :=
    openCode?_of_contextAt (by rw [h]; simp)
  obtain ⟨rfl, b, w, rfl, hb, hw⟩ := exists_of_contextOfCode_tag (hcontext.symm.trans h)
  obtain ⟨hform, before, left, hcut, hleft⟩ := exists_of_openCode? hopen
  exact ⟨before, left, b, w, ⟨hcut, hform, hleft, hw, isWordChar_of_getLast?_blank hb⟩, hopen, hb⟩

namespace Typing

variable {line : List Char} {form : Form} {before : List Piece} {left code word : List Char}

theorem line_eq (h : Typing line form before left code word) :
    line = spell before ++ (form.opener ++ (left ++ code)) ++ word := by
  have hline := Region.spell_pieces .line line
  rw [h.cut] at hline
  rw [← hline]
  simp [spell]

theorem trailingWord_eq (h : Typing line form before left code word) :
    Text.trailingWord line = (spell before ++ (form.opener ++ (left ++ code)), word) := by
  have hopener : ∀ c ∈ form.opener.getLast?, isWordChar c = false := fun c hc => by
    obtain rfl : form.mark = c := by simpa [Form.opener] using hc
    cases form <;> rfl
  have hleft : ∀ c ∈ left.getLast?, isWordChar c = false := by
    rcases h.marked with ⟨rfl, -⟩ | ⟨d, hd, rfl⟩
    · simp
    · intro c hc
      obtain rfl : d = c := by simpa using hc
      rw [isMarker, Bool.or_eq_true, decide_eq_true_eq, decide_eq_true_eq] at hd
      rcases hd with rfl | rfl <;> rfl
  conv_lhs => rw [h.line_eq]
  refine Text.trailingWord_eq h.isWord fun c hc => ?_
  rw [List.getLast?_append_of_ne_nil _ (by simp [Form.opener])] at hc
  exact getLast?_append_of hopener (getLast?_append_of hleft h.ends) c hc

theorem spell_dropLast (h : Typing line form before left code word) :
    spell (pieces .line line).dropLast = spell before := by
  rw [h.cut, List.dropLast_concat]

theorem newline_not_mem_before (h : Typing line form before left code word) (hline : '\n' ∉ line) :
    '\n' ∉ spell before := fun hmem =>
  hline (h.line_eq ▸ List.mem_append_left _ (List.mem_append_left _ hmem))

/-- **Other words and a closer complete the region, and it alone.** -/
theorem pieces_accept (h : Typing line form before left code word) (hline : '\n' ∉ line)
    {u : List Char} (hu : Region.Words u) :
    pieces .line ((Text.trailingWord line).1 ++ (u ++ form.closer)) =
        before ++ [⟨.template form, framed form left (code ++ u) []⟩] ∧
      Frame left (code ++ u) [] := by
  have hcut : pieces .line ((Text.trailingWord line).1 ++ word) =
      before ++ [⟨.unterminated form, form.opener ++ (left ++ (code ++ word))⟩] := by
    rw [h.trailingWord_eq, ← h.line_eq]
    exact h.cut
  have hfree : '\n' ∉ (Text.trailingWord line).1 := fun hmem => by
    rw [h.trailingWord_eq] at hmem
    exact hline (h.line_eq ▸ List.mem_append_left _ hmem)
  have hclose := Region.lengthAfterOpener?_closer_of_plain h.inCode hu.plain
  obtain ⟨inner, hinner, hpieces⟩ := Region.pieces_close hfree h.isWord
    (hu.tail_closed form) hclose hcut
  obtain rfl : left ++ code = inner := by
    rw [← List.append_assoc left] at hinner
    exact List.append_cancel_right (List.append_cancel_left hinner)
  have hmarker : ∀ c ∈ u, isMarker c = false := fun c hc =>
    (hu.chars c hc).elim not_isMarker_of_isWordChar fun hc => Region.not_isMarker_of_isBlank hc.1
  refine ⟨?_, ?_, Or.inl ⟨rfl, ?_⟩⟩
  · rw [hpieces, framed]
    simp
  · rcases h.marked with ⟨hleft, hhead⟩ | hleft
    · refine Or.inl ⟨hleft, ?_⟩
      cases code with
      | nil =>
        obtain ⟨d, u, rfl⟩ := List.exists_cons_of_ne_nil hu.ne_nil
        exact hmarker d List.mem_cons_self
      | cons d code => exact hhead
    · exact Or.inr hleft
  · rw [List.getLast?_append_of_ne_nil _ hu.ne_nil]
    cases hend : u.getLast? with
    | none => rfl
    | some c => exact hmarker c (List.mem_of_mem_getLast? hend)

end Typing

end TwigTemplate.Completion
