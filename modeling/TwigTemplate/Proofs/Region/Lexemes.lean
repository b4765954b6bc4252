import TwigTemplate.Proofs.Literal.Masking
import TwigTemplate.Proofs.Region.Closing
import TwigTemplate.Proofs.Region.Framing
import TwigTemplate.Proofs.Region.Quiet

/-!
# What the checks see of an expression

The search for the closer of an expression reads it lexeme by lexeme.  It takes a quote for an
ordinary character when it has no partner on its line.  The checks read what the region says
character by character, and for them every quote opens a literal.  If the search takes every quote
along with a literal, both see the same literals.

* `Lexeme`, `lexemes?`: what the search takes at once.
* `expressionLength?_eq_lexemes`, `exists_lexemes`: **the search goes through these lexemes**, and a
  region is spelled by them.
* `mask_write`, `split_write`: masks and splits, lexeme by lexeme.
* `exists_between`: markers and blanks around a text are lexemes around it.
* `SeenAs`, `checks_see_literals`: **the checks see these literals**, hide what stands in them and
  find a filter behind each pipe outside of them.
-/

namespace TwigTemplate.Region

open Literal (FilterCall after after_cons after_literal after_ne_outside after_of_held
  after_outside filterCalls hide mask maskFrom maskFrom_append maskFrom_cons maskFrom_of_held
  maskFrom_of_outside split splitFrom_append splitFrom_append_of_uncut step_close
  step_quote)
open Text (isBlank)

/-- What the search for a closer takes at once. -/
inductive Lexeme where
  /-- A string literal with its two quotes. -/
  | literal (quote : Char) (inner : List Char)
  /-- The pair that closes the other form. -/
  | pair (form : Form)
  /-- Any other character, a quote without a partner among them. -/
  | char (c : Char)
  deriving DecidableEq, Repr

namespace Lexeme

def text : Lexeme → List Char
  | literal q inner => q :: (inner ++ [q])
  | pair form => form.closer
  | char c => [c]

/-- The text, with all that stands strictly inside a literal hidden. -/
def masked : Lexeme → List Char
  | literal q inner => q :: (inner.flatMap hide ++ [q])
  | pair form => form.closer
  | char c => [c]

/-- A lexeme as the search takes it. -/
def Formed : Lexeme → Prop
  | literal q inner => Quoted q inner
  | pair form => form ≠ .comment
  | char _ => True

theorem text_ne_nil (t : Lexeme) : t.text ≠ [] := by
  cases t with
  | literal q inner => exact List.cons_ne_nil _ _
  | pair form => cases form <;> exact List.cons_ne_nil _ _
  | char c => exact List.cons_ne_nil _ _

/-- No lone quote. -/
def Partnered : Lexeme → Prop
  | char c => isQuote c = false
  | _ => True

instance : DecidablePred Partnered := fun t =>
  match t with
  | literal _ _ => inferInstanceAs (Decidable True)
  | pair _ => inferInstanceAs (Decidable True)
  | char c => inferInstanceAs (Decidable (isQuote c = false))

end Lexeme

/-- The text of a row of lexemes. -/
def write (ts : List Lexeme) : List Char :=
  ts.flatMap Lexeme.text

theorem write_nil : write [] = [] := rfl

theorem write_cons (t : Lexeme) (ts : List Lexeme) : write (t :: ts) = t.text ++ write ts :=
  List.flatMap_cons

theorem write_append (ts us : List Lexeme) : write (ts ++ us) = write ts ++ write us :=
  List.flatMap_append

/-- The lexemes before the closer of `form`, if there is one in reach. -/
def lexemes? (reach : Reach) (form : Form) : List Char → Option (List Lexeme)
  | [] => none
  | c :: r =>
    match literal? (c :: r) with
    | some n => (lexemes? reach form (r.drop (n - 1))).map (.literal c (r.take (n - 2)) :: ·)
    | none =>
      match closing? (c :: r) with
      | some other =>
        if other = form then some []
        else (lexemes? reach form (r.drop 1)).map (.pair other :: ·)
      | none =>
        if reach.stopsAt c then none else (lexemes? reach form r).map (.char c :: ·)
termination_by cs => cs.length
decreasing_by all_goals simp only [List.length_drop, List.length_cons]; omega

/-! ### The search, lexeme by lexeme -/

section Search

variable {reach : Reach} {form : Form} {cs : List Char} {ts : List Lexeme}

theorem cut_of_literal? {c : Char} {r : List Char} {n : Nat} (h : literal? (c :: r) = some n) :
    c :: r = (Lexeme.literal c (r.take (n - 2))).text ++ r.drop (n - 1) ∧
      (Lexeme.literal c (r.take (n - 2))).text.length = n ∧ Quoted c (r.take (n - 2)) := by
  obtain ⟨q, inner, rest, hcut, hquoted, rfl⟩ := exists_quoted_of_literal? h
  obtain ⟨rfl, rfl⟩ := List.cons.inj hcut
  have hdrop : (inner ++ c :: rest).drop (inner.length + 2 - 1) = rest := drop_quoted c inner rest
  rw [hdrop, Nat.add_sub_cancel, List.take_left]
  exact ⟨by simp [Lexeme.text], by simp [Lexeme.text], hquoted⟩

/-- **The search goes through the lexemes**, and takes the closer behind them. -/
theorem expressionLength?_eq_lexemes (reach : Reach) (form : Form) (cs : List Char) :
    expressionLength? reach form 0 cs =
      (lexemes? reach form cs).map fun ts => (write ts).length + 2 := by
  fun_induction lexemes? reach form cs with
  | case1 => rfl
  | case2 c r n hlit ih =>
    obtain ⟨hcut, hlength, -⟩ := cut_of_literal? hlit
    have hdrop : (c :: r).drop n = r.drop (n - 1) := by
      rw [hcut]
      exact List.drop_left' hlength
    rw [expressionLength?_past_literal hlit, hdrop, ih]
    cases lexemes? reach form (r.drop (n - 1)) with
    | none => rfl
    | some ts =>
      simp only [Option.map_some, write_cons, List.length_append, hlength, Option.some.injEq]
      omega
  | case3 c r hlit hclose => exact expressionLength?_close hlit hclose
  | case4 c r hlit other hclose hother ih =>
    obtain ⟨rest, rfl⟩ := exists_pair hclose
    rw [List.drop_succ_cons, List.drop_zero] at ih ⊢
    rw [expressionLength?_past_pair hlit hclose hother, ih]
    cases lexemes? reach form rest with
    | none => rfl
    | some ts => cases other <;> simp [write_cons, Lexeme.text, Form.closer]
  | case5 c r hlit hclose hstop => exact expressionLength?_stop hlit hclose hstop
  | case6 c r hlit hclose hstop ih =>
    rw [expressionLength?_pass hlit hclose (by simpa using hstop), ih]
    cases lexemes? reach form r with
    | none => rfl
    | some ts => simp [write_cons, Lexeme.text]

/-- **The lexemes spell what stands before the closer.** -/
theorem write_of_lexemes? (h : lexemes? reach form cs = some ts) :
    (∃ rest, cs = write ts ++ (form.closer ++ rest)) ∧ ∀ t ∈ ts, t.Formed := by
  fun_induction lexemes? reach form cs generalizing ts with
  | case1 => exact absurd h (by simp)
  | case2 c r n hlit ih =>
    obtain ⟨hcut, -, hquoted⟩ := cut_of_literal? hlit
    obtain ⟨us, hus, rfl⟩ := Option.map_eq_some_iff.mp h
    obtain ⟨⟨tail, htail⟩, hformed⟩ := ih hus
    refine ⟨⟨tail, ?_⟩, List.forall_mem_cons.mpr ⟨hquoted, hformed⟩⟩
    rw [hcut, htail, write_cons, List.append_assoc]
  | case3 c r hlit hclose =>
    obtain rfl := Option.some.inj h
    obtain ⟨rest, hcut, -⟩ := eq_of_closing? hclose
    exact ⟨⟨rest, hcut⟩, List.forall_mem_nil _⟩
  | case4 c r hlit other hclose hother ih =>
    obtain ⟨us, hus, rfl⟩ := Option.map_eq_some_iff.mp h
    obtain ⟨rest, hcut, hcomment⟩ := eq_of_closing? hclose
    obtain ⟨⟨tail, htail⟩, hformed⟩ := ih hus
    refine ⟨⟨tail, ?_⟩, List.forall_mem_cons.mpr ⟨hcomment, hformed⟩⟩
    have hrest : rest = r.drop 1 := by
      have hdrop := congrArg (List.drop 2) hcut
      cases other <;> exact hdrop.symm
    rw [hcut, hrest, htail, write_cons, List.append_assoc]
    rfl
  | case5 => exact absurd h (by simp)
  | case6 c r hlit hclose hstop ih =>
    obtain ⟨us, hus, rfl⟩ := Option.map_eq_some_iff.mp h
    obtain ⟨⟨tail, rfl⟩, hformed⟩ := ih hus
    exact ⟨⟨tail, rfl⟩, List.forall_mem_cons.mpr ⟨trivial, hformed⟩⟩

/-- **A closed region is its opener, its lexemes and its closer**, wherever it stands. -/
theorem exists_lexemes {before after : List Region} {r : Region}
    (hscan : Scanned cs reach (before ++ r :: after)) (hkind : r.kind = .template form)
    (hform : form ≠ .comment) :
    ∃ ts, lexemes? reach form ((r.raw ++ after.flatMap (·.raw)).drop 2) = some ts ∧
      r.raw = form.opener ++ (write ts ++ form.closer) ∧ ∀ t ∈ ts, t.Formed := by
  have hcut := hscan.pieces_eq
  rw [List.map_append, List.map_cons] at hcut
  obtain ⟨body, hbody, hclosed, hstops⟩ := code_of_pieces hcut (Or.inl hkind)
  rw [← flatMap_raw_eq_spell] at hbody hstops
  obtain ⟨n, hn⟩ := hclosed.mp hkind
  have hafter := hstops n hn
  rw [lengthAfterOpener?_expression hform, expressionLength?_eq_lexemes] at hn
  obtain ⟨ts, hts, rfl⟩ := Option.map_eq_some_iff.mp hn
  obtain ⟨⟨rest, rfl⟩, hformed⟩ := write_of_lexemes? hts
  have hlength : (write ts).length + 2 = (write ts ++ form.closer).length := by
    rw [List.length_append]
    cases form <;> rfl
  rw [← List.append_assoc, hlength, List.drop_left] at hafter
  have hwhole : r.raw ++ after.flatMap (·.raw) =
      form.opener ++ (write ts ++ (form.closer ++ rest)) := hbody
  refine ⟨ts, ?_, ?_, hformed⟩
  · rw [hwhole]
    exact hts
  · rw [hafter] at hwhole
    have hsame : r.raw ++ rest = form.opener ++ (write ts ++ form.closer) ++ rest :=
      hwhole.trans (by simp)
    exact List.append_cancel_right hsame

end Search

/-! ### Masks and splits, lexeme by lexeme -/

section Checks

variable {t : Lexeme} {ts : List Lexeme}

theorem Lexeme.Formed.pass (ht : t.Formed) (hquote : t.Partnered) :
    after .outside t.text = .outside ∧ maskFrom .outside t.text = t.masked := by
  cases t with
  | literal q inner =>
    have ht : Quoted q inner := ht
    refine ⟨after_literal ht.isQuote ht.escaped ht.closed [], ?_⟩
    rw [Lexeme.text, maskFrom_cons, if_pos (Or.inl rfl), step_quote ht.isQuote, maskFrom_append,
      maskFrom_of_held ht.escaped, after_of_held ht.escaped, if_neg ht.closed, maskFrom_cons,
      step_close ht.isQuote, if_pos (Or.inr rfl)]
    rfl
  | pair form =>
    have hfree := isQuote_of_mem_closer form
    exact ⟨after_outside hfree, maskFrom_of_outside hfree⟩
  | char c =>
    have hfree : ∀ d ∈ [c], isQuote d = false := List.forall_mem_singleton.mpr hquote
    exact ⟨after_outside hfree, maskFrom_of_outside hfree⟩

/-- **The mask hides what stands in the literals.** -/
theorem mask_write (hts : ∀ t ∈ ts, t.Formed) (hquotes : ∀ t ∈ ts, t.Partnered) :
    mask (write ts) = ts.flatMap Lexeme.masked := by
  induction ts with
  | nil => rfl
  | cons t ts ih =>
    obtain ⟨ht, hts⟩ := List.forall_mem_cons.mp hts
    obtain ⟨hquote, hquotes⟩ := List.forall_mem_cons.mp hquotes
    obtain ⟨hafter, hmask⟩ := ht.pass hquote
    rw [write_cons, mask, maskFrom_append, hafter, hmask, ← mask, ih hts hquotes,
      List.flatMap_cons]

theorem Lexeme.Formed.uncut {sep : Char} (ht : t.Formed) (hsep : isQuote sep = false)
    (hcloser : ∀ form : Form, sep ∉ form.closer) (hne : t ≠ .char sep) (front back : List Char)
    (hcut : t.text = front ++ sep :: back) : after .outside front ≠ .outside := by
  have hmem : sep ∈ t.text := by
    rw [hcut]
    exact List.mem_append_right _ List.mem_cons_self
  cases t with
  | literal q inner =>
    have ht : Quoted q inner := ht
    have hq : sep ≠ q := by
      rintro rfl
      exact absurd (ht.isQuote.symm.trans hsep) (by simp)
    cases front with
    | nil => exact absurd (List.cons.inj hcut).1.symm hq
    | cons d front =>
      obtain ⟨rfl, hinner⟩ := List.cons.inj hcut
      have hinner : inner ++ [q] = front ++ sep :: back := hinner
      rcases back.eq_nil_or_concat with rfl | ⟨back, e, rfl⟩
      · exact absurd (List.cons.inj (List.append_inj' hinner rfl).2).1.symm hq
      · rw [List.concat_eq_append, ← List.cons_append, ← List.append_assoc] at hinner
        have hheld : Literal.Held q (front ++ sep :: back) :=
          (List.append_inj' hinner rfl).1 ▸ ht.escaped
        rw [after_cons, step_quote ht.isQuote]
        exact after_ne_outside hheld.of_append
  | pair form => exact absurd hmem (hcloser form)
  | char c => exact absurd (congrArg Lexeme.char (List.mem_singleton.mp hmem).symm) hne

/-- **A text is split where a separator is a lexeme.** -/
theorem split_write {sep : Char} (hsep : isQuote sep = false)
    (hcloser : ∀ form : Form, sep ∉ form.closer) (hts : ∀ t ∈ ts, t.Formed)
    (hquotes : ∀ t ∈ ts, t.Partnered) :
    split sep (write ts) = (ts.splitOn (.char sep)).map write := by
  induction ts with
  | nil => rfl
  | cons t ts ih =>
    obtain ⟨ht, hts⟩ := List.forall_mem_cons.mp hts
    obtain ⟨hquote, hquotes⟩ := List.forall_mem_cons.mp hquotes
    have hrest := ih hts hquotes
    rw [split] at hrest ⊢
    rw [write_cons, List.splitOn_cons_eq_if_modifyHead]
    by_cases hne : t = .char sep
    · subst hne
      have hcut := splitFrom_append hsep (s := .outside) (p := []) rfl (write ts)
      rw [if_pos (by simp), List.map_cons, ← hrest]
      exact hcut
    · rw [if_neg (by simpa using hne),
        splitFrom_append_of_uncut (ht.uncut hsep hcloser hne), (ht.pass hquote).1, hrest]
      cases ts.splitOn (.char sep) <;> rfl

end Checks

/-! ### The edges of a region -/

/-- A character that may stand between a delimiter of a region and what the region says. -/
def IsEdge (c : Char) : Prop :=
  isMarker c = true ∨ isBlank c = true

section Edges

variable {t : Lexeme} {ts : List Lexeme} {c : Char} {cs u v m : List Char}

theorem IsEdge.ne {d : Char} (hc : IsEdge c) (hmarker : isMarker d = false)
    (hblank : isBlank d = false) : c ≠ d := by
  rintro rfl
  rcases hc with hc | hc
  · exact absurd (hc.symm.trans hmarker) (by simp)
  · exact absurd (hc.symm.trans hblank) (by simp)

theorem IsEdge.isQuote (hc : IsEdge c) : isQuote c = false :=
  hc.elim isQuote_of_isMarker isQuote_of_isBlank

/-- **A lexeme that begins or ends with a marker or a blank is this character.** -/
theorem IsEdge.eq_char (hc : IsEdge c) (ht : t.Formed)
    (h : c ∈ t.text.head? ∨ c ∈ t.text.getLast?) : t = .char c := by
  cases t with
  | literal q inner =>
    have hq : c = q := by
      rcases h with h | h
      · exact (Option.some.inj h).symm
      · rw [Lexeme.text, ← List.cons_append, List.getLast?_concat] at h
        exact (Option.some.inj h).symm
    have ht : Quoted q inner := ht
    exact absurd (ht.isQuote.symm.trans (hq ▸ hc.isQuote)) (by simp)
  | pair form =>
    have hmem : c ∈ form.closer := h.elim List.mem_of_mem_head? List.mem_of_getLast?
    cases form <;> rcases List.mem_pair.mp hmem with he | he <;>
      exact absurd he (hc.ne (by decide) (by decide))
  | char d => exact congrArg Lexeme.char (h.elim Option.some.inj Option.some.inj)

theorem exists_cons_of_write (hts : ∀ t ∈ ts, t.Formed) (hc : IsEdge c) (h : write ts = c :: cs) :
    ∃ us, ts = .char c :: us ∧ write us = cs := by
  cases ts with
  | nil => exact absurd h (by simp [write])
  | cons t us =>
    rw [write_cons] at h
    have hhead : c ∈ (t.text ++ write us).head? := by
      rw [h]
      rfl
    rw [List.head?_append_of_ne_nil _ t.text_ne_nil] at hhead
    obtain rfl := hc.eq_char (hts t List.mem_cons_self) (Or.inl hhead)
    exact ⟨us, rfl, (List.cons.inj h).2⟩

theorem exists_concat_of_write (hts : ∀ t ∈ ts, t.Formed) (hc : IsEdge c)
    (h : write ts = cs ++ [c]) : ∃ us, ts = us ++ [.char c] ∧ write us = cs := by
  rcases ts.eq_nil_or_concat with rfl | ⟨us, t, rfl⟩
  · exact absurd h (by simp [write])
  · rw [List.concat_eq_append] at hts h ⊢
    rw [write_append, write_cons, write_nil, List.append_nil] at h
    have hlast : c ∈ t.text.getLast? := by
      rw [← List.getLast?_append_of_ne_nil (write us) t.text_ne_nil, h, List.getLast?_concat]
      rfl
    obtain rfl := hc.eq_char (hts t (by simp)) (Or.inr hlast)
    exact ⟨us, rfl, List.append_cancel_right h⟩

/-- **Markers and blanks around a text are lexemes around it.** -/
theorem exists_between (hts : ∀ t ∈ ts, t.Formed) (hu : ∀ c ∈ u, IsEdge c)
    (hv : ∀ c ∈ v, IsEdge c) (h : write ts = u ++ (m ++ v)) :
    ∃ ms, ts = u.map .char ++ (ms ++ v.map .char) ∧ write ms = m := by
  induction u generalizing ts with
  | nil =>
    -- The end is taken off from behind.
    induction v using List.reverseRecOn generalizing ts with
    | nil => exact ⟨ts, by simp, by simpa using h⟩
    | append_singleton v c ih =>
      rw [List.nil_append, ← List.append_assoc] at h
      obtain ⟨us, rfl, hus⟩ := exists_concat_of_write hts (hv c (by simp)) h
      obtain ⟨ms, rfl, hms⟩ := ih (fun d hd => hv d (List.mem_append_left _ hd))
        (fun t ht => hts t (List.mem_append_left _ ht)) hus
      exact ⟨ms, by simp, hms⟩
  | cons c u ih =>
    obtain ⟨hc, hu⟩ := List.forall_mem_cons.mp hu
    obtain ⟨us, rfl, hus⟩ := exists_cons_of_write hts hc h
    obtain ⟨ms, rfl, hms⟩ := ih (List.forall_mem_cons.mp hts).2 hu hus
    exact ⟨ms, rfl, hms⟩

theorem exists_edges {r : Region} {form : Form} {inner : List Char}
    (hkind : r.kind = .template form) (hraw : r.raw = form.opener ++ (inner ++ form.closer)) :
    ∃ u v, inner = u ++ (r.content ++ v) ∧ (∀ c ∈ u, IsEdge c) ∧ ∀ c ∈ v, IsEdge c := by
  obtain ⟨left, core, right, rfl, hframe⟩ := exists_frame inner
  have hcontent : r.content = Text.trimBy isBlank core := by
    rw [content, if_neg (by simp [hkind]), hkind, hraw, ← framed_eq, body_frame hframe]
    rfl
  have hmarkers : ∀ {w : List Char} {p : Prop}, (w = [] ∧ p ∨ ∃ c, isMarker c ∧ w = [c]) →
      ∀ c ∈ w, IsEdge c := by
    rintro w p (⟨rfl, -⟩ | ⟨c, hc, rfl⟩)
    · exact List.forall_mem_nil _
    · exact List.forall_mem_singleton.mpr (Or.inl hc)
  obtain ⟨u, v, hcore, hu, hv⟩ := Text.exists_eq_append_trimBy isBlank core
  refine ⟨left ++ u, v ++ right, ?_, fun c hc => ?_, fun c hc => ?_⟩
  · rw [hcontent]
    conv_lhs => rw [hcore]
    simp
  · exact (List.mem_append.mp hc).elim (hmarkers hframe.left c) fun hc => Or.inr (hu c hc)
  · exact (List.mem_append.mp hc).elim (fun hc => Or.inr (hv c hc)) (hmarkers hframe.right c)

end Edges

/-! ### What the checks see -/

/-- The checks see the content of a region as these lexemes: the mask hides what stands strictly
inside the literals, and there is one filter for each pipe outside of them, in order, which ends
where the next one begins. -/
structure SeenAs (content : List Char) (ms : List Lexeme) : Prop where
  spelled : content = write ms
  hidden : mask content = ms.flatMap Lexeme.masked
  oneEach : (filterCalls content).length = ms.count (.char '|')
  filters : filterCalls content =
    ((ms.splitOn (.char '|')).drop 1).map fun part => FilterCall.ofPart (write part)

theorem seenAs_write {ms : List Lexeme} (hms : ∀ t ∈ ms, t.Formed)
    (hquotes : ∀ t ∈ ms, t.Partnered) : SeenAs (write ms) ms := by
  have hcalls : filterCalls (write ms) =
      ((ms.splitOn (.char '|')).drop 1).map fun part => FilterCall.ofPart (write part) := by
    have hpipe : ∀ form : Form, '|' ∉ form.closer := fun form => by cases form <;> decide
    rw [filterCalls, split_write rfl hpipe hms hquotes, ← List.map_drop, List.map_map]
    rfl
  refine ⟨rfl, mask_write hms hquotes, ?_, hcalls⟩
  rw [hcalls, List.length_map, List.length_drop, Text.length_splitOn_eq_count, Nat.add_sub_cancel]

/-- **The checks of an output or a statement see the literals of the search for its closer.**  The
search takes lexemes up to the closer.  If every quote belongs to a literal among them, the checks
see the region as these lexemes, without the markers and blanks at either end. -/
theorem checks_see_literals {cs : List Char} {reach : Reach} {before after : List Region}
    {r : Region} {form : Form} (hscan : Scanned cs reach (before ++ r :: after))
    (hkind : r.kind = .template form) (hform : form ≠ .comment) :
    ∃ ts, lexemes? reach form ((r.raw ++ after.flatMap (·.raw)).drop 2) = some ts ∧
      r.raw = form.opener ++ (write ts ++ form.closer) ∧
      ((∀ t ∈ ts, t.Partnered) →
        ∃ (u v : List Char) (ms : List Lexeme), ts = u.map .char ++ (ms ++ v.map .char) ∧
          (∀ c ∈ u ++ v, IsEdge c) ∧ SeenAs r.content ms) := by
  obtain ⟨ts, hts, hraw, hformed⟩ := exists_lexemes hscan hkind hform
  refine ⟨ts, hts, hraw, fun hquotes => ?_⟩
  obtain ⟨u, v, hinner, hu, hv⟩ := exists_edges hkind hraw
  obtain ⟨ms, rfl, hms⟩ := exists_between hformed hu hv hinner
  have hmem : ∀ t ∈ ms, t ∈ u.map Lexeme.char ++ (ms ++ v.map .char) := fun t ht =>
    List.mem_append_right _ (List.mem_append_left _ ht)
  refine ⟨u, v, ms, rfl, fun c hc => (List.mem_append.mp hc).elim (hu c) (hv c), ?_⟩
  rw [← hms]
  exact seenAs_write (fun t ht => hformed t (hmem t ht)) fun t ht => hquotes t (hmem t ht)

/-- A literal that holds a pipe, another quote and an escaped one, and markers and blanks around the
content. -/
theorem checks_see_literals_nested :
    ∃ r after, ofDocument "\x7b\x7b- a|f('|\"\\'') ~\x7d\x7d b".toList = [r, after] ∧
      r.kind = .template .output ∧ Form.output ≠ .comment ∧
      ∃ ts ms, lexemes? .document .output "- a|f('|\"\\'') ~\x7d\x7d b".toList = some ts ∧
        (∀ t ∈ ts, t.Partnered) ∧ .literal '\'' ['|', '"', '\\', '\''] ∈ ts ∧
        SeenAs r.content ms ∧ ms.count (.char '|') = 1 := by
  have hscan : ofDocument "\x7b\x7b- a|f('|\"\\'') ~\x7d\x7d b".toList =
      [⟨.template .output, ⟨1, 1, 0⟩, ⟨1, 20, 19⟩, "\x7b\x7b- a|f('|\"\\'') ~\x7d\x7d".toList⟩,
        ⟨.text, ⟨1, 20, 19⟩, ⟨1, 22, 21⟩, " b".toList⟩] := by
    decide +kernel
  have hdocument : Scanned "\x7b\x7b- a|f('|\"\\'') ~\x7d\x7d b".toList .document _ := .document
  rw [hscan] at hdocument
  obtain ⟨ts, hts, -, hsees⟩ :=
    @checks_see_literals _ .document [] _ _ .output hdocument rfl (by decide)
  have hlexemes : lexemes? .document .output "- a|f('|\"\\'') ~\x7d\x7d b".toList = some
      [.char '-', .char ' ', .char 'a', .char '|', .char 'f', .char '(',
        .literal '\'' ['|', '"', '\\', '\''], .char ')', .char ' ', .char '~'] := by
    decide +kernel
  obtain rfl := Option.some.inj (hlexemes.symm.trans hts)
  obtain ⟨-, -, ms, -, -, hseen⟩ := hsees (by decide)
  refine ⟨_, _, hscan, rfl, by decide, _, ms, hlexemes, by decide, by decide, hseen, ?_⟩
  rw [← hseen.oneEach]
  decide +kernel

end TwigTemplate.Region
