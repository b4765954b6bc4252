import TwigTemplate.Proofs.Element.Ahead
import TwigTemplate.Proofs.Region.Rescanning
import TwigTemplate.Proofs.Text.Relining
import TwigTemplate.Proofs.Text.Word

/-!
# Tags are found whatever stands around the newlines

The scan for tags passes blanks one by one, but for those inside a comment, a quoted value or raw
text.  It stops at letters alone, so that relined texts without template code are scanned in step.

* `ReadsLetters`: what a search may look for; `ReadsLetters.searchEnd`: **a search ends at the same
  letter**.
* `startTagEnd?_relined`, `endTag?_relined`, `rawText_relined`: the parts of a step.
* `step_relined`: **a step finds the same tag**, and goes on in step.
* `tagsAhead_relined`: **relined texts have the same tags**, with the same number of letters from
  each on.
-/

namespace TwigTemplate.Element

open Text (isBlank solid startsWith Relined)

/-! ### Searches -/

/-- A test of the letters that a text begins with, and the number of letters that belong to what is
found. -/
structure ReadsLetters (p : List Char → Bool) (width : Nat) : Prop where
  blank : ∀ {c : Char} {r : List Char}, isBlank c = true → p (c :: r) = false
  same : ∀ {cs ds : List Char}, Relined cs ds → p cs = p ds
  drop : ∀ {cs ds : List Char}, Relined cs ds → p cs = true →
    Relined (cs.drop width) (ds.drop width)

theorem readsLetters_startsWith {w : List Char} (hne : w ≠ []) (hw : ∀ c ∈ w, isBlank c = false) :
    ReadsLetters (startsWith w) w.length where
  blank := by
    intro c r hc
    obtain ⟨d, w, rfl⟩ := List.exists_cons_of_ne_nil hne
    rw [← Bool.not_eq_true, Text.startsWith_iff, List.cons_prefix_cons]
    rintro ⟨rfl, -⟩
    rw [hw d List.mem_cons_self] at hc
    exact absurd hc (by simp)
  same h := h.startsWith_eq hw
  drop h hcs := h.drop hw (Text.startsWith_iff.mp hcs)

theorem toLower_of_isBlank {c : Char} (hc : isBlank c = true) : c.toLower = c := by
  unfold Char.toLower
  refine dif_neg fun hupper => ?_
  have hlow : 65 ≤ c.toNat := UInt32.le_iff_toNat_le.mp hupper.1
  have hhigh : c.toNat ≤ 90 := UInt32.le_iff_toNat_le.mp hupper.2
  simp only [isBlank, Bool.or_eq_true, Bool.and_eq_true, decide_eq_true_eq, beq_iff_eq] at hc
  omega

theorem isBlank_of_lowerAscii {u w : List Char} (hu : Text.lowerAscii u = w)
    (hw : ∀ c ∈ w, isBlank c = false) : ∀ c ∈ u, isBlank c = false := by
  intro c hc
  rw [← Bool.not_eq_true]
  intro hblank
  have hmem : c ∈ w := by
    rw [← hu, ← toLower_of_isBlank hblank]
    exact List.mem_map_of_mem hc
  rw [hw c hmem] at hblank
  exact Bool.false_ne_true hblank

theorem readsLetters_closesRaw {name : List Char} (hname : ∀ c ∈ name, isBlank c = false) :
    ReadsLetters (closesRaw name) 0 where
  blank := by
    intro c r hc
    refine closesRaw_of_ne ?_ name r
    rintro rfl
    exact absurd hc (by decide)
  same := by
    have hmark : ∀ c ∈ '<' :: '/' :: name, isBlank c = false :=
      List.forall_mem_cons.mpr ⟨by decide, List.forall_mem_cons.mpr ⟨by decide, hname⟩⟩
    have hleft : ∀ {cs ds : List Char}, Relined cs ds → closesRaw name cs = true →
        closesRaw name ds = true := by
      intro cs ds h hcs
      obtain ⟨rest, hrest⟩ := Text.startsWith_iff.mp hcs
      obtain ⟨u, v, rfl, hu, -⟩ := List.map_eq_append_iff.mp hrest.symm
      obtain ⟨ds, rfl, -⟩ := h.word (isBlank_of_lowerAscii hu hmark)
      rw [closesRaw, Text.startsWith_iff, Text.lowerAscii, List.map_append, hu]
      exact List.prefix_append _ _
    intro cs ds h
    exact Bool.eq_iff_iff.mpr ⟨hleft h, hleft h.symm⟩
  drop h _ := h

section Search

variable {p : List Char → Bool} {width : Nat} {cs ds : List Char}

theorem ReadsLetters.searchLength?_blank (hp : ReadsLetters p width) {us : List Char}
    (hus : ∀ c ∈ us, isBlank c = true) (cs : List Char) :
    searchLength? p (us ++ cs) = (searchLength? p cs).map (· + us.length) := by
  induction us with
  | nil => cases hcs : searchLength? p cs <;> simp [hcs]
  | cons c us ih =>
    obtain ⟨hc, hus⟩ := List.forall_mem_cons.mp hus
    rw [List.cons_append, searchLength?, hp.blank hc, if_neg Bool.false_ne_true, ih hus,
      Option.map_map]
    rfl

/-- **A search finds the same letters**, and what follows them is read in step. -/
theorem ReadsLetters.search (hp : ReadsLetters p width) (h : Relined cs ds) :
    Option.Rel (fun n m => Relined (cs.drop (n + width)) (ds.drop (m + width)))
      (searchLength? p cs) (searchLength? p ds) := by
  induction h with
  | @blank us vs hus hvs =>
    rw [← List.append_nil us, ← List.append_nil vs, hp.searchLength?_blank hus,
      hp.searchLength?_blank hvs]
    exact .none
  | @letter us vs cs ds c hus hvs _ hc h ih =>
    have hdrop : ∀ {us cs : List Char} {n : Nat},
        (us ++ cs).drop (n + us.length + width) = cs.drop (n + width) := by
      intro us cs n
      rw [Nat.add_right_comm, Nat.add_comm _ us.length, List.drop_length_add_append]
    rw [hp.searchLength?_blank hus, hp.searchLength?_blank hvs, searchLength?, searchLength?,
      ← hp.same (h.cons hc)]
    by_cases hfound : p (c :: cs) = true
    · rw [if_pos hfound, if_pos hfound]
      refine .some ?_
      rw [hdrop, hdrop, Nat.zero_add]
      exact hp.drop (h.cons hc) hfound
    · rw [if_neg hfound, if_neg hfound]
      revert ih
      generalize searchLength? p cs = n
      generalize searchLength? p ds = m
      rintro (hrest | -)
      · refine .some ?_
        rw [hdrop, hdrop, Nat.add_right_comm, Nat.add_right_comm _ 1]
        exact hrest
      · exact .none

/-- **A search ends at the same letter**, or at the end of both texts. -/
theorem ReadsLetters.searchEnd (hp : ReadsLetters p width) (h : Relined cs ds) :
    Relined (cs.drop (searchEnd p width cs)) (ds.drop (Element.searchEnd p width ds)) := by
  have hsearch := hp.search h
  rw [Element.searchEnd, Element.searchEnd]
  revert hsearch
  generalize searchLength? p cs = n
  generalize searchLength? p ds = m
  rintro (hrest | -)
  · exact hrest
  · exact .blank (by simp) (by simp)

end Search

/-! ### Characters -/

theorem isNameChar_of_isBlank {c : Char} (hc : isBlank c = true) : isNameChar c = false := by
  have hword := Text.isWordChar_of_isBlank hc
  rw [Text.isWordChar, Bool.or_eq_false_iff] at hword
  rw [isNameChar, hword.1, Bool.false_or, Bool.or_eq_false_iff, decide_eq_false_iff_not,
    decide_eq_false_iff_not]
  constructor <;> (rintro rfl; exact absurd hc (by decide))

theorem isNameStart_of_isBlank {c : Char} (hc : isBlank c = true) : isNameStart c = false := by
  have hword := Text.isWordChar_of_isBlank hc
  rw [Text.isWordChar, Bool.or_eq_false_iff, Char.isAlphanum, Bool.or_eq_false_iff] at hword
  exact hword.1.1

/-- A text without the beginning of template code. -/
def CodeFree (cs : List Char) : Prop :=
  ∀ form : Form, ¬ form.opener <:+: cs

theorem CodeFree.of_suffix {cs ds : List Char} (h : CodeFree cs) (hds : ds <:+ cs) : CodeFree ds :=
  fun form hform => h form (hform.trans hds.isInfix)

theorem CodeFree.opening? {c : Char} {r : List Char} (h : CodeFree (c :: r)) :
    Form.opening? (c :: r) = none := by
  cases hopen : Form.opening? (c :: r) with
  | none => rfl
  | some form =>
    have hcut := Region.opening?_cons_eq_some hopen
    exact absurd (hcut ▸ (List.prefix_append _ _).isInfix) (h form)

/-! ### Start tags -/

section StartTag

variable {cs ds : List Char}

/-- Two ways to end a tag, in step. -/
def EndsInStep (cs ds : List Char) (e e' : Kind × Nat) : Prop :=
  e.1 = e'.1 ∧ Relined (cs.drop e.2) (ds.drop e'.2)

theorem endsInStep_drop {n m : Nat} {e e' : Option (Kind × Nat)}
    (h : Option.Rel (EndsInStep (cs.drop n) (ds.drop m)) e e') :
    Option.Rel (EndsInStep cs ds) (e.map fun e => (e.1, e.2 + n))
      (e'.map fun e => (e.1, e.2 + m)) := by
  obtain ⟨hkind, hrest⟩ | - := h
  · refine .some ⟨hkind, ?_⟩
    rw [List.drop_drop, List.drop_drop, Nat.add_comm n, Nat.add_comm m] at hrest
    exact hrest
  · exact .none

/-- What belongs together inside a start tag is the same, up to blanks in a quoted value. -/
theorem attributeLength_relined {c : Char} (hfree : CodeFree (c :: cs)) (h : Relined cs ds) :
    Relined ((c :: cs).drop (attributeLength (c :: cs)))
      ((c :: ds).drop (attributeLength (c :: ds))) := by
  have hopen := hfree.opening?
  rw [attributeLength, attributeLength, Region.opening?_respaced h.respaced, hopen]
  by_cases hquote : c = '"' ∨ c = '\''
  · have hc : ∀ d ∈ [c], isBlank d = false := by
      rintro d hd
      rw [List.mem_singleton.mp hd]
      rcases hquote with rfl | rfl <;> decide
    have hsearch := (readsLetters_startsWith (List.cons_ne_nil c []) hc).search h
    rw [if_pos hquote, if_pos hquote, valueLength?_eq, valueLength?_eq]
    revert hsearch
    generalize searchLength? (startsWith [c]) cs = n
    generalize searchLength? (startsWith [c]) ds = m
    rintro (hrest | -)
    · exact hrest
    · exact h
  · rw [if_neg hquote, if_neg hquote]
    exact h

theorem not_mem_of_isBlank {c : Char} (hc : isBlank c = true) :
    c ∉ ['>', '/', '"', '\'', '\x7b'] := by
  have hnone : ∀ d ∈ ['>', '/', '"', '\'', '\x7b'], isBlank d = false := by simp [isBlank]
  intro hmem
  rw [hnone c hmem] at hc
  exact Bool.false_ne_true hc

/-- **A start tag ends at the same letter**, or never. -/
theorem startTagEnd?_relined (hfree : CodeFree cs) (h : Relined cs ds) :
    Option.Rel (EndsInStep cs ds) (startTagEnd? 0 cs) (startTagEnd? 0 ds) := by
  induction hlen : cs.length using Nat.strong_induction_on generalizing cs ds with
  | _ n ih =>
    subst hlen
    have hskip : ∀ {us : List Char}, (∀ c ∈ us, isBlank c = true) → ∀ cs,
        startTagEnd? 0 (us ++ cs) = (startTagEnd? 0 cs).map fun e => (e.1, e.2 + us.length) :=
      fun hus => startTagEnd?_plain fun c hc => not_mem_of_isBlank (hus c hc)
    cases h with
    | blank hus hvs =>
      rw [← List.append_nil cs, ← List.append_nil ds, hskip hus, hskip hvs]
      exact .none
    | @letter us vs cs ds c hus hvs _ hc h =>
      rw [hskip hus, hskip hvs]
      apply endsInStep_drop
      rw [List.drop_left, List.drop_left]
      replace hfree := hfree.of_suffix (List.suffix_append us (c :: cs))
      have hslash : startsWith ['/', '>'] (c :: cs) = startsWith ['/', '>'] (c :: ds) :=
        (h.cons hc).startsWith_eq (by simp [isBlank])
      by_cases hclose : c = '>'
      · rw [startTagEnd?, startTagEnd?, if_pos hclose, if_pos hclose]
        exact .some ⟨rfl, h⟩
      by_cases hself : startsWith ['/', '>'] (c :: cs) = true
      · rw [startTagEnd?, startTagEnd?, if_neg hclose, if_neg hclose, if_pos hself,
          if_pos (hslash ▸ hself)]
        exact .some ⟨rfl, (h.cons hc).drop (w := ['/', '>']) (by simp [isBlank])
          (Text.startsWith_iff.mp hself)⟩
      · rw [startTagEnd?_cons hclose hself, startTagEnd?_cons hclose (hslash ▸ hself)]
        have hpos := attributeLength_pos c cs
        exact endsInStep_drop (ih _
          (by rw [List.length_drop, List.length_append, List.length_cons]; omega)
          (hfree.of_suffix (List.drop_suffix _ _)) (attributeLength_relined hfree h) rfl)

end StartTag

/-! ### Steps -/

/-- Two steps that find the same tag, and go on in step. -/
structure StepsAlike (cs ds : List Char) (s t : Step) : Prop where
  tag : s.tag = t.tag
  rest : Relined (cs.drop s.length) (ds.drop t.length)

section Steps

variable {cs ds : List Char}

theorem stepsAlike_skip {n m : Nat} (h : Relined (cs.drop n) (ds.drop m)) :
    StepsAlike cs ds (.skip n) (.skip m) :=
  ⟨rfl, h⟩

theorem isBlank_of_mem_rawText {name : List Char} (hname : holdsRawText name = true) :
    ∀ c ∈ name, isBlank c = false := by
  rcases holdsRawText_iff.mp hname with rfl | rfl <;> simp [isBlank]

theorem rawText_relined (kind : Kind) (name : List Char) (h : Relined cs ds) :
    Relined (cs.drop (if kind = .opens ∧ holdsRawText name then rawTextLength name cs else 0))
      (ds.drop (if kind = .opens ∧ holdsRawText name then rawTextLength name ds else 0)) := by
  by_cases hraw : kind = .opens ∧ holdsRawText name = true
  · rw [if_pos hraw, if_pos hraw, rawTextLength_eq, rawTextLength_eq]
    exact (readsLetters_closesRaw (isBlank_of_mem_rawText hraw.2)).searchEnd h
  · rw [if_neg hraw, if_neg hraw]
    exact h

theorem startTag_relined (hfree : CodeFree cs) (h : Relined cs ds) :
    StepsAlike cs ds (startTag cs) (startTag ds) := by
  obtain ⟨hname, hrest⟩ := h.takeWhile (q := isNameChar) fun _ => isNameChar_of_isBlank
  have hends := startTagEnd?_relined (hfree.of_suffix (List.dropWhile_suffix _)) hrest
  have hdrop : ∀ cs : List Char, cs.drop (Text.lowerAscii (cs.takeWhile isNameChar)).length =
      cs.dropWhile isNameChar := fun cs => by
    rw [Text.lowerAscii, List.length_map, drop_length_takeWhile]
  rw [startTag, startTag]
  dsimp only
  revert hends
  generalize startTagEnd? 0 (cs.dropWhile isNameChar) = e
  generalize startTagEnd? 0 (ds.dropWhile isNameChar) = e'
  rintro (@⟨⟨end?, n⟩, ⟨_, m⟩, ⟨rfl, hend⟩⟩ | -)
  · refine ⟨by rw [hname], ?_⟩
    dsimp only
    rw [← List.drop_drop, ← List.drop_drop, ← List.drop_drop, ← List.drop_drop, hdrop, hdrop,
      ← hname]
    exact rawText_relined _ _ hend
  · exact stepsAlike_skip (by
      rw [List.drop_length, List.drop_length]
      exact .blank (by simp) (by simp))

theorem gap_relined (h : Relined cs ds) (hclose : startsWith ['>'] (cs.dropWhile isGap) = true) :
    Relined (cs.dropWhile isGap) (ds.dropWhile isGap) := by
  obtain ⟨rest, hrest⟩ := Text.startsWith_iff.mp hclose
  have hall : ∀ c ∈ cs.takeWhile isGap, isGap c = true := fun c hc => List.mem_takeWhile_imp hc
  have hfree : '\n' ∉ cs.takeWhile isGap := fun hmem => absurd (hall _ hmem) (by decide)
  have hcut : cs = cs.takeWhile isGap ++ '>' :: rest := by
    conv_lhs => rw [← @List.takeWhile_append_dropWhile _ isGap cs, ← hrest]
    rfl
  rw [hcut] at h
  obtain ⟨ds, rfl, hds⟩ := h.stretch hfree (by decide)
  rw [← hrest, List.dropWhile_append_of_pos hall]
  exact hds.cons (by decide)

theorem endTag?_relined (h : Relined cs ds) :
    Option.Rel (StepsAlike cs ds) (endTag? cs) (endTag? ds) := by
  obtain ⟨hname, hrest⟩ := h.takeWhile (q := isNameChar) fun _ => isNameChar_of_isBlank
  have hdrop : ∀ cs : List Char, ∀ n, cs.drop ((cs.takeWhile isNameChar).length +
      ((cs.dropWhile isNameChar).takeWhile isGap).length + n) =
        ((cs.dropWhile isNameChar).dropWhile isGap).drop n := fun cs n => by
    rw [← List.drop_drop, ← List.drop_drop, drop_length_takeWhile, drop_length_takeWhile]
  have hmark : ∀ c ∈ ['>'], isBlank c = false := by simp [isBlank]
  rw [endTag?_eq, endTag?_eq]
  by_cases hclose : startsWith ['>'] ((cs.dropWhile isNameChar).dropWhile isGap) = true
  · have hafter := gap_relined hrest hclose
    rw [if_pos hclose, if_pos ((hafter.startsWith_eq hmark).symm.trans hclose)]
    refine .some ⟨by rw [hname], ?_⟩
    rw [hdrop, hdrop]
    exact hafter.drop hmark (Text.startsWith_iff.mp hclose)
  · have hclose' : ¬ startsWith ['>'] ((ds.dropWhile isNameChar).dropWhile isGap) = true := by
      intro hclose'
      have hafter := gap_relined hrest.symm hclose'
      exact hclose ((hafter.startsWith_eq hmark).symm.trans hclose')
    rw [if_neg hclose, if_neg hclose']
    exact .none

theorem bang_relined (h : Relined cs ds) :
    StepsAlike ('!' :: cs) ('!' :: ds) (step '<' ('!' :: cs)) (step '<' ('!' :: ds)) := by
  by_cases hdashes : ['-', '-'] <+: cs
  · obtain ⟨cs, rfl⟩ := hdashes
    obtain ⟨ds, rfl, hinner⟩ := h.word (w := ['-', '-']) (by simp [isBlank])
    have hcomment := (readsLetters_startsWith (w := ['-', '-', '>']) (by simp)
      (by simp [isBlank])).searchEnd hinner
    refine stepsAlike_skip ?_
    rw [commentLength_eq, commentLength_eq, Nat.add_comm 3, Nat.add_comm 3]
    exact hcomment
  · have hdashes' : ¬ ['-', '-'] <+: ds := by
      rw [← Text.startsWith_iff] at hdashes ⊢
      rwa [← h.startsWith_eq (by simp [isBlank])]
    rw [step_bang hdashes, step_bang hdashes']
    exact stepsAlike_skip (h.cons (by decide))

theorem slash_relined (h : Relined cs ds) :
    StepsAlike ('/' :: cs) ('/' :: ds) (step '<' ('/' :: cs)) (step '<' ('/' :: ds)) := by
  have hskip : StepsAlike ('/' :: cs) ('/' :: ds) (.skip 0) (.skip 0) :=
    stepsAlike_skip (h.cons (by decide))
  rw [step_slash, step_slash, ← h.any_head? fun _ => isNameStart_of_isBlank]
  split
  · have hend := endTag?_relined h
    revert hend
    generalize endTag? cs = e
    generalize endTag? ds = e'
    rintro (⟨htag, hlater⟩ | -)
    · exact ⟨htag, hlater⟩
    · exact hskip
  · exact hskip

theorem step_relined {c : Char} (hfree : CodeFree (c :: cs)) (h : Relined cs ds) :
    StepsAlike cs ds (step c cs) (step c ds) := by
  by_cases hc : c = '<'
  · subst hc
    by_cases hname : cs.head?.any isNameStart = true
    · rw [step_name hname,
        step_name ((h.any_head? fun _ => isNameStart_of_isBlank).symm.trans hname)]
      exact startTag_relined (hfree.of_suffix (List.suffix_cons _ _)) h
    by_cases hbang : cs.head? = some '!'
    · obtain ⟨cs, rfl⟩ := List.head?_eq_some_iff.mp hbang
      obtain ⟨ds, rfl, hrest⟩ := h.cons_left (by decide)
      exact bang_relined hrest
    by_cases hslash : cs.head? = some '/'
    · obtain ⟨cs, rfl⟩ := List.head?_eq_some_iff.mp hslash
      obtain ⟨ds, rfl, hrest⟩ := h.cons_left (by decide)
      exact slash_relined hrest
    · have hother : ∀ d, isBlank d = false → cs.head? ≠ some d → ds.head? ≠ some d :=
        fun d hd hcs hds => hcs (Region.head?_respaced h.symm.respaced hd hds)
      rw [step_other hbang hslash (Bool.eq_false_iff.mpr hname),
        step_other (hother _ (by decide) hbang) (hother _ (by decide) hslash)
          ((h.any_head? fun _ => isNameStart_of_isBlank).symm.trans (Bool.eq_false_iff.mpr hname))]
      exact stepsAlike_skip h
  · rw [step_of_ne hc, step_of_ne hc, Region.opening?_respaced h.respaced, hfree.opening?]
    exact stepsAlike_skip h

end Steps

/-! ### The tags of a text -/

theorem step_of_isBlank {c : Char} (hc : isBlank c = true) (r : List Char) :
    step c r = .skip 0 := by
  rw [step_of_ne (Region.ne_of_isBlank hc (by decide)), Region.opening?_of_isBlank hc]

theorem tagsAhead_blank {us : List Char} (hus : ∀ c ∈ us, isBlank c = true) (cs : List Char) :
    tagsAhead (us ++ cs) = tagsAhead cs := by
  induction us with
  | nil => rfl
  | cons c us ih =>
    obtain ⟨hc, hus⟩ := List.forall_mem_cons.mp hus
    rw [List.cons_append, tagsAhead_cons, following, step_of_isBlank hc, ← ih hus]
    rfl

/-- **Relined texts have the same tags**, with the same number of letters from each on. -/
theorem tagsAhead_relined {cs ds : List Char} (hfree : CodeFree cs) (h : Relined cs ds) :
    tagsAhead cs = tagsAhead ds := by
  induction hlen : cs.length using Nat.strong_induction_on generalizing cs ds with
  | _ n ih =>
    subst hlen
    cases h with
    | blank hus hvs =>
      rw [← List.append_nil cs, ← List.append_nil ds, tagsAhead_blank hus, tagsAhead_blank hvs]
    | @letter us vs cs ds c hus hvs _ hc h =>
      replace hfree := hfree.of_suffix (List.suffix_append us (c :: cs))
      have hstep := step_relined hfree h
      have hlength : (following c cs).length < (us ++ c :: cs).length := by
        have := length_following_le c cs
        rw [List.length_append, List.length_cons]
        omega
      have hlater : tagsAhead (following c cs) = tagsAhead (following c ds) :=
        ih _ hlength (hfree.of_suffix (following_suffix c cs)) hstep.rest rfl
      rw [tagsAhead_blank hus, tagsAhead_blank hvs, tagsAhead_cons, tagsAhead_cons, hlater,
        hstep.tag, Text.solid_eq_of_respaced (h.cons hc).respaced]

end TwigTemplate.Element
