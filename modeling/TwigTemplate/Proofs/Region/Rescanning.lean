import TwigTemplate.Proofs.Region.Respacing
import TwigTemplate.Proofs.Region.Scans

/-!
# Scanning a text again after its blanks were changed

A layout moves the tokens of a document about, and squeezes the spacing inside its
regions.  This file proves that a scan of the new text finds the tokens again.

* `Token.Alike`: a character and itself, or a region and one with other blanks.
* `scans_respaced`: **a respaced row of tokens is scanned as it stands**.
-/

namespace TwigTemplate.Region

open Text (isBlank Gap Respaced RespacedBy Inner)

/-! ### Rows that differ in their blanks -/

/-- A character and itself, or a region and the same region with other blanks. -/
inductive Token.Alike : Token → Token → Prop
  | char (c : Char) : Token.Alike (.char c) (.char c)
  | code {form : Form} {a b : List Char} : Inner a b →
      (∀ c ∈ b.getLast?, Text.isBlank c = false) →
      Token.Alike (.code (form.opener ++ a)) (.code (form.opener ++ b))

/-- Rows of tokens that differ in their blanks alone. -/
abbrev RespacedTokens (ts us : List Token) : Prop :=
  RespacedBy Token.isBlank Token.newline Token.Alike ts us

theorem exists_eq_map_char {ts : List Token} (h : ∀ t ∈ ts, t.isBlank = true) :
    ∃ cs : List Char, ts = cs.map .char ∧ ∀ c ∈ cs, isBlank c = true := by
  induction ts with
  | nil => exact ⟨[], rfl, by simp⟩
  | cons t ts ih =>
    obtain ⟨cs, rfl, hcs⟩ := ih fun u hu => h u (List.mem_cons_of_mem _ hu)
    have ht := h t List.mem_cons_self
    cases t with
    | char c =>
      refine ⟨c :: cs, rfl, fun d hd => ?_⟩
      rcases List.mem_cons.mp hd with rfl | hd
      · exact ht
      · exact hcs d hd
    | code raw => exact absurd ht (by simp [Token.isBlank])

theorem isBlank_of_mem_map_char {cs : List Char} (h : ∀ c ∈ cs, isBlank c = true) :
    ∀ t ∈ cs.map Token.char, t.isBlank = true := by
  intro t ht
  obtain ⟨c, hc, rfl⟩ := List.mem_map.mp ht
  exact h c hc

theorem mem_map_char {c : Char} {cs : List Char} : Token.char c ∈ cs.map .char ↔ c ∈ cs := by
  simp

theorem gap_tell {u v : List Token} (h : Gap Token.isBlank Token.newline u v) :
    Gap isBlank '\n' (tell u) (tell v) := by
  obtain ⟨cs, rfl, hcs⟩ := exists_eq_map_char h.left
  obtain ⟨ds, rfl, hds⟩ := exists_eq_map_char h.right
  rw [tell_map_char, tell_map_char]
  exact
    { left := hcs
      right := hds
      left_ne_nil := by simpa using h.left_ne_nil
      right_ne_nil := by simpa using h.right_ne_nil
      newline := by
        rw [← mem_map_char, ← mem_map_char]
        exact h.newline }

theorem respaced_tell {ts us : List Token} (h : RespacedTokens ts us) :
    Respaced (tell ts) (tell us) := by
  induction h with
  | blank hx hy =>
    obtain ⟨cs, rfl, hcs⟩ := exists_eq_map_char hx
    obtain ⟨ds, rfl, hds⟩ := exists_eq_map_char hy
    rw [tell_map_char, tell_map_char]
    exact .blank hcs hds
  | same hx _ hxy _ ih =>
    cases hxy with
    | char c => exact .same hx hx rfl ih
    | code hab _ =>
      rw [tell_code_cons, tell_code_cons]
      exact (Inner.refl _).append hab _ _ ih
  | gap hgap _ ih =>
    rw [tell_append, tell_append]
    exact .gap (gap_tell hgap) ih

/-! ### Openers -/

theorem opening?_eq (c : Char) (cs : List Char) :
    Form.opening? (c :: cs) = if c = '{' then cs.head?.bind Form.ofMark? else none := by
  cases cs with
  | nil =>
    rw [Form.opening?]
    · split <;> rfl
    · simp
  | cons d cs =>
    by_cases hc : c = '{'
    · rw [if_pos hc, hc]
      rfl
    · rw [if_neg hc, Form.opening?]
      intro e r he
      exact absurd (List.cons.inj he).1 hc

theorem ofMark?_of_isBlank {c : Char} (hc : isBlank c = true) : Form.ofMark? c = none := by
  rw [Form.ofMark?, if_neg (ne_of_isBlank hc (by decide)), if_neg (ne_of_isBlank hc (by decide)),
    if_neg (ne_of_isBlank hc (by decide))]

theorem opening?_of_isBlank {c : Char} (hc : isBlank c = true) (cs : List Char) :
    Form.opening? (c :: cs) = none := by
  rw [opening?_eq, if_neg (ne_of_isBlank hc (by decide))]

/-- An opener stays one when blanks change, and none comes about. -/
theorem opening?_respaced {cs ds : List Char} (h : Respaced cs ds) (c : Char) :
    Form.opening? (c :: ds) = Form.opening? (c :: cs) := by
  have hmark : ∀ {cs ds : List Char}, Respaced cs ds → ∀ form,
      cs.head?.bind Form.ofMark? = some form → ds.head?.bind Form.ofMark? = some form := by
    intro cs ds h form hform
    obtain ⟨d, hd, hmark⟩ := Option.bind_eq_some_iff.mp hform
    have hblank : isBlank d = false := by
      rw [← Bool.not_eq_true]
      intro hb
      rw [ofMark?_of_isBlank hb] at hmark
      exact absurd hmark (by simp)
    rw [head?_respaced h hblank hd]
    exact hmark
  rw [opening?_eq, opening?_eq]
  split
  · cases hds : ds.head?.bind Form.ofMark? with
    | some form => exact (hmark (Text.respaced_symm h) form hds).symm
    | none =>
      cases hcs : cs.head?.bind Form.ofMark? with
      | none => rfl
      | some form =>
        rw [hmark h form hcs] at hds
        exact absurd hds (by simp)
  · rfl

theorem respaced_drop_mark {c : Char} {cs ds : List Char} {form : Form}
    (hopen : Form.opening? (c :: cs) = some form) (h : Respaced cs ds) :
    Respaced (cs.drop 1) (ds.drop 1) := by
  have hcut := opening?_cons_eq_some hopen
  cases cs with
  | nil => simp [Form.opener] at hcut
  | cons d cs =>
    have hd : isBlank d = false := by
      obtain rfl : d = form.mark := by
        have := (List.cons.inj hcut).2
        exact (List.cons.inj this).1
      cases form <;> decide
    obtain ⟨e, ys, rfl, -, -, hafter⟩ := h.cons_left hd
    exact hafter

/-! ### Scanning again -/

section Scans

variable {loose : Bool}

theorem Scans.of_char {c : Char} {ts : List Token} (h : Scans loose (.char c :: ts))
    (hopen : ∀ ds : List Char, Form.opening? (c :: ds) = none) : Scans loose ts := by
  cases h with
  | char _ hrest => exact hrest
  | unterminated _ hsome _ _ _ _ =>
    rw [hopen] at hsome
    exact absurd hsome (by simp)

theorem scans_blank_append {u : List Token} (hu : ∀ t ∈ u, t.isBlank = true) {ts : List Token} :
    Scans loose (u ++ ts) ↔ Scans loose ts := by
  obtain ⟨cs, rfl, hcs⟩ := exists_eq_map_char hu
  clear hu
  induction cs with
  | nil => exact Iff.rfl
  | cons c cs ih =>
    have hc := hcs c List.mem_cons_self
    have hopen : ∀ ds : List Char, Form.opening? (c :: ds) = none := opening?_of_isBlank hc
    rw [← ih fun d hd => hcs d (List.mem_cons_of_mem _ hd), List.map_cons, List.cons_append]
    exact ⟨fun h => h.of_char hopen, fun h => .char (hopen _) h⟩

theorem scans_blank (loose : Bool) {u : List Token} (hu : ∀ t ∈ u, t.isBlank = true) :
    Scans loose u := by
  have happ : Scans loose (u ++ []) := (scans_blank_append hu).mpr .nil
  rwa [List.append_nil] at happ

theorem opener_inj {form form' : Form} {a b : List Char}
    (h : form.opener ++ a = form'.opener ++ b) : form = form' ∧ a = b := by
  have hform : form = form' := by
    have hopen := opening?_opener form a
    rw [h, opening?_opener] at hopen
    exact (Option.some.inj hopen).symm
  subst hform
  exact ⟨rfl, List.append_cancel_left h⟩

theorem exists_eq_map_char_of_respaced {cs : List Char} {us : List Token}
    (h : RespacedTokens (cs.map .char) us) : ∃ ds : List Char, us = ds.map .char := by
  have hchar : ∀ t ∈ us, ∃ d, t = Token.char d := by
    intro t ht
    rcases h.mem_right ht with hb | ⟨s, hs, hst⟩
    · cases t with
      | char d => exact ⟨d, rfl⟩
      | code raw => exact absurd hb (by simp [Token.isBlank])
    · obtain ⟨d, -, rfl⟩ := List.mem_map.mp hs
      cases hst
      exact ⟨d, rfl⟩
  clear h
  induction us with
  | nil => exact ⟨[], rfl⟩
  | cons t us ih =>
    obtain ⟨d, rfl⟩ := hchar t List.mem_cons_self
    obtain ⟨ds, rfl⟩ := ih fun u hu => hchar u (List.mem_cons_of_mem _ hu)
    exact ⟨d :: ds, rfl⟩

/-- **A respaced row of tokens is scanned as it stands.** -/
theorem scans_respaced {ts us : List Token} (h : Scans loose ts) (hresp : RespacedTokens ts us) :
    Scans loose us := by
  induction hlen : ts.length using Nat.strong_induction_on generalizing ts us with
  | _ k ih =>
    subst hlen
    cases hresp with
    | blank _ hus => exact scans_blank loose hus
    | @gap u v xs ys hgap hrest =>
      have hpos := List.length_pos_iff.mpr hgap.left_ne_nil
      have hxs := (scans_blank_append hgap.left).mp h
      exact (scans_blank_append hgap.right).mpr
        (ih xs.length (by rw [List.length_append]; omega) hxs hrest rfl)
    | @same x y xs ys hx _ hxy hrest =>
      have htell := respaced_tell hrest
      cases hxy with
      | @code form a b hab hb =>
        generalize hraw : form.opener ++ a = raw at h
        cases h with
        | @code form' body _ hclose hxs =>
          obtain ⟨rfl, rfl⟩ := opener_inj hraw
          exact .code (lengthAfterOpener?_respaced hab hb htell hclose)
            (ih xs.length (by simp) hxs hrest rfl)
      | char c =>
        cases h with
        | char hopen hxs =>
          refine .char ?_ (ih xs.length (by simp) hxs hrest rfl)
          rw [opening?_respaced htell]
          exact hopen
        | @unterminated form _ cs zs hloose hopen hclose hcs hhead hzs =>
          have hfree : Token.newline ∉ cs.map Token.char := fun hmem => hcs (mem_map_char.mp hmem)
          obtain ⟨front, back, rfl, ⟨hfree', hhead', hfront, hback⟩⟩ :=
            RespacedBy.split (by decide) hrest hfree hhead
          obtain ⟨ds, rfl⟩ := exists_eq_map_char_of_respaced hfront
          rw [tell_append, tell_append, tell_map_char, tell_map_char] at htell
          refine .unterminated hloose (?_ : Form.opening? _ = some form) ?_ ?_ hhead'
            (ih zs.length (by simp only [List.length_cons, List.length_append]; omega)
              hzs hback rfl)
          · rw [opening?_respaced htell]
            exact hopen
          · exact lengthAfterOpener?_none (respaced_drop_mark hopen htell) hclose
          · exact fun hmem => hfree' (mem_map_char.mpr hmem)

end Scans

end TwigTemplate.Region
