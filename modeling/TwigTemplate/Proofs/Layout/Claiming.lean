import TwigTemplate.Proofs.Layout.Weaving
import TwigTemplate.Proofs.Region.Framing
import TwigTemplate.Proofs.Text.Occurrences

/-!
# Which placeholders are put back

Restoring goes over whatever a printer returned.  The first word with a number puts
its region back; a word that comes again, or whose number no region has, is left as
it stands.  Numbers are read as digits, so that `007` is read as `7`.

* `spelled`: the word around a run of digits; a placeholder is one of these.
* `Protected.exists_weave_putBack`: what was printed is a weave of the words that
  put a region back, and putting back replaces these words and nothing else.
* `toDigits_ofDigitChars`: digits without a leading zero are those of a placeholder.
* `infix_weave_regionFor`: **no placeholder comes out of the regions**, nor out of
  a region and the text beside it.
* `restore_once`: what a text that is restored was like, and when no placeholder is
  left in it.
-/

namespace TwigTemplate.Layout

open Slot

/-! ### Numbers and their digits -/

/-- The word with the tag around a run of digits. -/
def spelled (tag digits : List Char) : List Char :=
  placeholderStart tag ++ digits ++ ['_', '_']

theorem placeholder_eq_spelled (tag : List Char) (n : Nat) :
    placeholder tag n = spelled tag (Nat.toDigits 10 n) := rfl

theorem digitChar_toNat {c : Char} (hc : c.isDigit = true) :
    (c.toNat - '0'.toNat).digitChar = c ∧ c.toNat - '0'.toNat < 10 := by
  rw [Char.isDigit, Bool.and_eq_true, decide_eq_true_eq, decide_eq_true_eq] at hc
  have hlow : 48 ≤ c.toNat := UInt32.le_iff_toNat_le.mp hc.1
  have hhigh : c.toNat ≤ 57 := UInt32.le_iff_toNat_le.mp hc.2
  have hzero : '0'.toNat = 48 := rfl
  have hlt : c.toNat - '0'.toNat < 10 := by omega
  refine ⟨Char.toNat_inj.mp ?_, hlt⟩
  rw [Nat.toNat_digitChar_of_lt_ten hlt]
  omega

theorem toDigits_ofDigitChars {digits : List Char} (hdigits : ∀ c ∈ digits, c.isDigit = true)
    (hne : digits ≠ []) (hzero : ∀ rest, digits = '0' :: rest → rest = []) :
    Nat.toDigits 10 (Nat.ofDigitChars 10 digits 0) = digits := by
  induction digits using List.reverseRecOn with
  | nil => exact absurd rfl hne
  | append_singleton front d ih =>
    obtain ⟨hd, hlt⟩ := digitChar_toNat (hdigits d (by simp))
    rw [Nat.ofDigitChars_append, Nat.ofDigitChars_cons, Nat.ofDigitChars_nil]
    by_cases hfront : front = []
    · subst hfront
      rw [Nat.ofDigitChars_nil, Nat.mul_zero, Nat.zero_add, Nat.toDigits_of_lt_base hlt, hd,
        List.nil_append]
    · have hnozero : ∀ rest, front = '0' :: rest → False := by
        rintro rest rfl
        exact absurd (hzero (rest ++ [d]) rfl) (by simp)
      have hwritten := ih (fun c hc => hdigits c (List.mem_append_left _ hc)) hfront
        fun rest he => (hnozero rest he).elim
      have hpos : 0 < Nat.ofDigitChars 10 front 0 := by
        rw [Nat.pos_iff_ne_zero]
        intro he
        rw [he, Nat.toDigits_zero] at hwritten
        exact hnozero [] hwritten.symm
      rw [← Nat.toDigits_append_toDigits (by decide) hpos hlt, hwritten,
        Nat.toDigits_of_lt_base hlt, hd]

theorem number?_eq_some_iff {digits : List Char} {n : Nat} :
    Protected.number? digits = some n ↔ digits ≠ [] ∧ Nat.ofDigitChars 10 digits 0 = n := by
  rw [Protected.number?, ← Nat.ofDigitChars_eq_foldl]
  split
  · next h => simpa using fun hne => absurd (List.isEmpty_iff.mp h) hne
  · next h =>
    rw [List.isEmpty_iff] at h
    simp [h]

/-! ### Putting back as a weave -/

namespace Protected

/-- The words that put a region back: numbers with regions, none twice and none of
them in `seen`. -/
structure Claims (p : Protected) (seen : List Nat) (more : List (List Char × List Char))
    (ks : List Nat) : Prop where
  digits : ∀ e ∈ more, ∀ c ∈ e.1, c.isDigit = true
  numbers : more.map (fun e => number? e.1) = ks.map some
  nodup : ks.Nodup
  fresh : ∀ k ∈ ks, k < p.regions.length ∧ k ∉ seen

theorem Claims.none (p : Protected) (seen : List Nat) : Claims p seen [] [] where
  digits := by simp
  numbers := rfl
  nodup := List.nodup_nil
  fresh := by simp

theorem Claims.cons {p : Protected} {seen ks : List Nat} {more : List (List Char × List Char)}
    {digits part : List Char} {n : Nat} (hdigits : ∀ c ∈ digits, c.isDigit = true)
    (hnumber : number? digits = some n) (hn : n < p.regions.length) (hseen : n ∉ seen)
    (h : Claims p (n :: seen) more ks) : Claims p seen ((digits, part) :: more) (n :: ks) where
  digits := by
    intro e he
    rcases List.mem_cons.mp he with rfl | he
    · exact hdigits
    · exact h.digits e he
  numbers := by rw [List.map_cons, List.map_cons, hnumber, h.numbers]
  nodup := List.nodup_cons.mpr ⟨fun hmem => (h.fresh n hmem).2 List.mem_cons_self, h.nodup⟩
  fresh := by
    intro k hk
    rcases List.mem_cons.mp hk with rfl | hk
    · exact ⟨hn, hseen⟩
    · exact ⟨(h.fresh k hk).1, fun hmem => (h.fresh k hk).2 (List.mem_cons_of_mem _ hmem)⟩

theorem claim?_eq_some {p : Protected} {seen : List Nat} {cs region after : List Char} {n : Nat}
    (h : claim? p seen cs = some (n, region, after)) :
    ∃ digits, (∀ c ∈ digits, c.isDigit = true) ∧ number? digits = some n ∧
      cs = digits ++ (['_', '_'] ++ after) ∧ n < p.regions.length ∧ n ∉ seen ∧
      region = fill p.regions n := by
  simp only [claim?, placeholderRest?, Option.bind_eq_bind, Option.bind_eq_some_iff, Prod.exists,
    Option.pure_def, Option.some.injEq, Prod.mk.injEq] at h
  obtain ⟨m, rest, ⟨m', hnumber, rest', hafter, rfl, rfl⟩, region', hget, h⟩ := h
  split at h
  · exact absurd h (by simp)
  · next hseen =>
    simp only [Option.some.injEq, Prod.mk.injEq] at h
    obtain ⟨rfl, rfl, rfl⟩ := h
    obtain ⟨hlt, hregion⟩ := List.getElem?_eq_some_iff.mp hget
    refine ⟨cs.takeWhile Char.isDigit, fun c hc => List.mem_takeWhile_imp hc, hnumber, ?_, hlt,
      by simpa using hseen, ?_⟩
    · rw [← Text.after?_eq_some_iff.mp hafter, List.takeWhile_append_dropWhile]
    · rw [fill, List.getD_eq_getElem?_getD, hget]
      rfl

/-- What stands in the end for a word with these digits. -/
def regionFor (p : Protected) (digits : List Char) : List Char :=
  (number? digits).elim [] (fill p.regions)

/-- **What was printed is a weave of the words that put a region back.**  Each of
them is replaced by its region, and the rest stays. -/
theorem exists_weave_putBack (p : Protected) (seen : List Nat) (cs : List Char) :
    ∃ first more ks, Claims p seen more ks ∧ cs = weave (spelled p.tag) first more ∧
      putBack p seen cs = (weave (regionFor p) first more, ks.reverse ++ seen) := by
  fun_induction putBack p seen cs with
  | case1 seen cs hcut => exact ⟨cs, [], [], Claims.none p seen, (weave_nil ..).symm, by simp [weave]⟩
  | case2 seen cs before rest hcut n region after hclaim out all hback ih =>
    obtain ⟨digits, hdigits, hnumber, rfl, hn, hseen, rfl⟩ := claim?_eq_some hclaim
    obtain ⟨first, more, ks, hclaims, hafter, hput⟩ := ih
    have hregion : regionFor p digits = fill p.regions n := by rw [regionFor, hnumber]; rfl
    refine ⟨before, (digits, first) :: more, n :: ks, hclaims.cons hdigits hnumber hn hseen, ?_, ?_⟩
    · rw [Text.eq_append_of_cutAt? hcut, weave_cons, ← hafter, spelled]
      simp
    · rw [hback, Prod.mk.injEq] at hput
      rw [weave_cons, hregion, ← hput.1, hput.2]
      simp
  | case3 seen cs before rest hcut hclaim out all hback ih =>
    -- The start of a word that is left stands in the stretch before the next region.
    obtain ⟨first, more, ks, hclaims, hrest, hput⟩ := ih
    refine ⟨before ++ placeholderStart p.tag ++ first, more, ks, hclaims, ?_, ?_⟩
    · rw [Text.eq_append_of_cutAt? hcut, hrest]
      simp [weave]
    · rw [hback, Prod.mk.injEq] at hput
      rw [hput.1, hput.2]
      simp [weave]

/-- **A text is restored when the words that put a region back are one for each
region.** -/
theorem restore_eq_ok {p : Protected} {printed out : List Char} (h : p.restore printed = .ok out) :
    ∃ first more ks, Claims p [] more ks ∧ ks.Perm (List.range p.regions.length) ∧
      printed = weave (spelled p.tag) first more ∧ out = weave (regionFor p) first more := by
  obtain ⟨first, more, ks, hclaims, hprinted, hput⟩ := exists_weave_putBack p [] printed
  rw [restore, hput] at h
  dsimp only at h
  split at h
  · exact absurd h (by simp)
  · next hfind =>
    have hseen : ∀ n ∈ List.range p.regions.length, n ∈ ks := by
      intro n hn
      simpa using List.find?_eq_none.mp hfind n hn
    have hperm : ks.Perm (List.range p.regions.length) := by
      rw [List.perm_ext_iff_of_nodup hclaims.nodup List.nodup_range]
      exact fun n => ⟨fun hn => List.mem_range.mpr (hclaims.fresh n hn).1, hseen n⟩
    exact ⟨first, more, ks, hclaims, hperm, hprinted, (Except.ok.inj h).symm⟩

end Protected

/-! ### Words in a weave -/

section Weave

variable {α : Type} {f : α → List Char} {first w : List Char} {more : List (α × List Char)}

theorem infix_weave_of_mem {e : α × List Char} (he : e ∈ more) :
    f e.1 <:+: weave f first more ∧ e.2 <:+: weave f first more := by
  have hmem : f e.1 ++ e.2 ∈ more.map fun e => f e.1 ++ e.2 := List.mem_map.mpr ⟨e, he, rfl⟩
  have hin : f e.1 ++ e.2 <:+: weave f first more :=
    (List.infix_of_mem_flatten hmem).trans (List.suffix_append ..).isInfix
  exact ⟨(List.prefix_append ..).isInfix.trans hin, (List.suffix_append ..).isInfix.trans hin⟩

/-- A word that stands in a stretch or in a later part of the weave. -/
theorem infix_weave_of_part (h : w <:+: first ∨ ∃ e ∈ more, w <:+: e.2) :
    w <:+: weave f first more := by
  rcases h with h | ⟨e, he, h⟩
  · exact h.trans (List.prefix_append ..).isInfix
  · exact h.trans (infix_weave_of_mem he).2

/-- **A word that is woven in and stands in a stretch too stands there twice.** -/
theorem two_le_occurrences_weave (hne : w ≠ []) (hword : ∃ e ∈ more, w <:+: f e.1)
    (hpart : w <:+: first ∨ ∃ e ∈ more, w <:+: e.2) :
    2 ≤ Text.occurrences w (weave f first more) := by
  induction more generalizing first with
  | nil => exact absurd hword (by simp)
  | cons e more ih =>
    have hcut : Text.occurrences w first +
        (Text.occurrences w (f e.1) + Text.occurrences w (weave f e.2 more)) ≤
        Text.occurrences w (weave f first (e :: more)) := by
      rw [weave_cons]
      exact (Nat.add_le_add_left (Text.occurrences_append_le hne) _).trans
        (Text.occurrences_append_le hne)
    rw [List.exists_mem_cons_iff] at hword hpart
    rcases hword with hword | hword
    · have hone := Text.occurrences_pos_iff.mpr hword
      rcases hpart with hpart | hpart
      · have := Text.occurrences_pos_iff.mpr hpart
        omega
      · have := Text.occurrences_pos_iff.mpr (infix_weave_of_part (f := f) hpart)
        omega
    · rcases hpart with hpart | hpart
      · obtain ⟨e', he', hin⟩ := hword
        have hlater : w <:+: weave f e.2 more := hin.trans (infix_weave_of_mem he').1
        have := Text.occurrences_pos_iff.mpr hpart
        have := Text.occurrences_pos_iff.mpr hlater
        omega
      · have := ih hword hpart
        omega

/-- A word without braces that stands in a weave of texts in braces stands in a
stretch, or between the braces of one of the texts. -/
theorem infix_weave_braced (hopen : '{' ∉ w) (hclose : '}' ∉ w)
    (hbraced : ∀ e ∈ more, ∃ mid, f e.1 = '{' :: (mid ++ ['}']) ∧ ¬ w <:+: mid)
    (h : w <:+: weave f first more) : w <:+: first ∨ ∃ e ∈ more, w <:+: e.2 := by
  induction more generalizing first with
  | nil =>
    rw [weave_nil] at h
    exact Or.inl h
  | cons e more ih =>
    obtain ⟨mid, hregion, hmid⟩ := hbraced e List.mem_cons_self
    have hcut : w <:+: first ++ '{' :: (mid ++ '}' :: weave f e.2 more) := by
      rw [weave_cons, hregion] at h
      simpa using h
    rw [List.exists_mem_cons_iff]
    rcases Text.infix_append_cons hopen hcut with hin | hin
    · exact Or.inl hin
    · rcases Text.infix_append_cons hclose hin with hin | hin
      · exact absurd hin hmid
      · exact Or.inr (ih (fun e' he' => hbraced e' (List.mem_cons_of_mem _ he')) hin)

end Weave

/-! ### Placeholders and regions -/

theorem mem_freshTag {cs tag : List Char} {c : Char} (h : c ∈ freshTag cs tag) :
    c ∈ tag ∨ c = 'X' := by
  fun_induction freshTag cs tag with
  | case1 tag _ ih =>
    rcases ih h with h | h
    · simpa using h
    · exact Or.inr h
  | case2 => exact Or.inl h

theorem not_mem_placeholder {cs : List Char} {n : Nat} {c : Char} (hc : c.isAlphanum = false)
    (hscore : c ≠ '_') : c ∉ placeholder (protect cs).tag n := by
  have htag : c ∉ (protect cs).tag := by
    intro hmem
    have hall : "TWIGKIT".toList.all Char.isAlphanum = true := by decide
    rw [protect_tag] at hmem
    rcases mem_freshTag hmem with hmem | rfl
    · rw [List.all_eq_true.mp hall c hmem] at hc
      exact absurd hc (by simp)
    · exact absurd hc (by decide)
  have hdigits : c ∉ Nat.toDigits 10 n := by
    intro hmem
    have hdigit := Nat.isDigit_of_mem_toDigits (by decide) (by decide) hmem
    rw [Char.isAlphanum, hdigit, Bool.or_true] at hc
    exact absurd hc (by simp)
  simp [placeholder, placeholderStart, htag, hdigits, hscore]

theorem tag_infix_placeholder (tag : List Char) (n : Nat) : tag <:+: placeholder tag n :=
  (tag_infix_placeholderStart tag).trans
    ((List.prefix_append ..).isInfix.trans (List.prefix_append ..).isInfix)

theorem braced_of_mem_regions {cs region : List Char} (h : region ∈ (protect cs).regions) :
    ∃ mid, region = '{' :: (mid ++ ['}']) ∧ ¬ (protect cs).tag <:+: mid := by
  rw [protect_regions, regionTexts, codeTexts, List.map_map] at h
  obtain ⟨p, hp, rfl⟩ := List.mem_map.mp h
  rw [List.mem_filter] at hp
  obtain ⟨form, hform⟩ : ∃ form, p.kind = .template form := by
    cases hkind : p.kind with
    | template form => exact ⟨form, rfl⟩
    | text => exact absurd hp.2 (by simp [hkind, Region.Kind.isTemplate])
    | unterminated form => exact absurd hp.2 (by simp [hkind, Region.Kind.isTemplate])
  obtain ⟨inner, hraw⟩ := Region.shape_of_mem_pieces p hp.1 hform
  have hin : p.raw <:+: cs := by
    have hflat := List.infix_of_mem_flatten (List.mem_map.mpr ⟨p, hp.1, rfl⟩ :
      p.raw ∈ (Region.pieces .document cs).map (·.raw))
    rwa [← List.flatMap_def, ← Region.spell, Region.spell_pieces] at hflat
  have htag : ¬ (protect cs).tag <:+: Region.normalizeSpacing p.raw := by
    intro hfound
    rw [hraw] at hfound
    have hold := Region.infix_of_infix_normalizeSpacing (protect_isTag cs).solid hfound
    rw [← hraw] at hold
    exact not_infix_freshTag cs _ (hold.trans hin)
  obtain ⟨inner', hshape⟩ := Region.normalizeSpacing_shape form inner
  have hbraced : ∃ mid, form.opener ++ (inner' ++ form.closer) = '{' :: (mid ++ ['}']) := by
    cases form
    · exact ⟨'{' :: (inner' ++ ['}']), by simp [Form.opener, Form.mark, Form.closer]⟩
    · exact ⟨'%' :: (inner' ++ ['%']), by simp [Form.opener, Form.mark, Form.closer]⟩
    · exact ⟨'#' :: (inner' ++ ['#']), by simp [Form.opener, Form.mark, Form.closer]⟩
  obtain ⟨mid, hmid⟩ := hbraced
  have hregion : Region.normalizeSpacing p.raw = '{' :: (mid ++ ['}']) := by
    rw [hraw, hshape, hmid]
  refine ⟨mid, hregion, fun hfound => htag (hfound.trans ?_)⟩
  rw [hregion]
  exact (List.prefix_append ..).isInfix.trans (List.suffix_cons ..).isInfix

/-! ### What a restored text was like -/

/-- **No placeholder comes out of a region**, nor out of one and the text beside it. -/
theorem infix_weave_regionFor {cs first : List Char} {more : List (List Char × List Char)}
    {ks : List Nat} {n : Nat} (hclaims : Protected.Claims (protect cs) [] more ks)
    (h : placeholder (protect cs).tag n <:+: weave (protect cs).regionFor first more) :
    placeholder (protect cs).tag n <:+: first ∨
      ∃ e ∈ more, placeholder (protect cs).tag n <:+: e.2 := by
  refine infix_weave_braced (not_mem_placeholder (by decide) (by decide))
    (not_mem_placeholder (by decide) (by decide)) (fun e he => ?_) h
  obtain ⟨k, hk, hnumber⟩ : ∃ k ∈ ks, Protected.number? e.1 = some k := by
    have hmem : Protected.number? e.1 ∈ ks.map some := by
      rw [← hclaims.numbers]
      exact List.mem_map.mpr ⟨e, he, rfl⟩
    obtain ⟨k, hk, hsome⟩ := List.mem_map.mp hmem
    exact ⟨k, hk, hsome.symm⟩
  have hlt := (hclaims.fresh k hk).1
  have hregion : (protect cs).regionFor e.1 = (protect cs).regions[k] := by
    rw [Protected.regionFor, hnumber, Option.elim, fill, List.getD_eq_getElem?_getD,
      List.getElem?_eq_getElem hlt]
    rfl
  obtain ⟨mid, hbraced, hfree⟩ := braced_of_mem_regions (List.getElem_mem hlt)
  exact ⟨mid, hregion.trans hbraced, fun hin => hfree ((tag_infix_placeholder _ n).trans hin)⟩

/-- No number is written with more digits than it has. -/
def Unpadded (tag printed : List Char) : Prop :=
  ∀ digits, digits ≠ [] → (∀ c ∈ digits, c.isDigit = true) →
    Text.occursIn (spelled tag ('0' :: digits)) printed = false

/-- Numbers are not padded when no digit follows a zero that begins one. -/
theorem unpadded_of_digits {tag printed : List Char}
    (h : "0123456789".toList.all
      fun d => !Text.occursIn (placeholderStart tag ++ ['0', d]) printed) :
    Unpadded tag printed := by
  intro digits hne hdigits
  obtain ⟨d, rest, rfl⟩ := List.exists_cons_of_ne_nil hne
  have hall : ∀ k < 10, Nat.digitChar k ∈ "0123456789".toList := by decide
  obtain ⟨hd, hlt⟩ := digitChar_toNat (hdigits d List.mem_cons_self)
  have hfree := List.all_eq_true.mp h d (hd ▸ hall _ hlt)
  rw [Bool.not_eq_true', not_occursIn_iff] at hfree
  rw [not_occursIn_iff]
  intro hin
  apply hfree
  refine List.IsInfix.trans (List.IsPrefix.isInfix ⟨rest ++ ['_', '_'], ?_⟩) hin
  simp [spelled]

theorem Unpadded.exists_placeholder {p : Protected} {first : List Char}
    {more : List (List Char × List Char)} {ks : List Nat} {n : Nat}
    (hpad : Unpadded p.tag (weave (spelled p.tag) first more)) (hclaims : p.Claims [] more ks)
    (hn : n ∈ ks) : ∃ e ∈ more, spelled p.tag e.1 = placeholder p.tag n := by
  have hmem : some n ∈ more.map fun e => Protected.number? e.1 := by
    rw [hclaims.numbers]
    exact List.mem_map.mpr ⟨n, hn, rfl⟩
  obtain ⟨e, he, hnumber⟩ := List.mem_map.mp hmem
  obtain ⟨hne, hvalue⟩ := number?_eq_some_iff.mp hnumber
  have hzero : ∀ rest, e.1 = '0' :: rest → rest = [] := by
    intro rest hrest
    by_contra hne'
    have hdigits : ∀ c ∈ rest, c.isDigit = true := fun c hc =>
      hclaims.digits e he c (by rw [hrest]; exact List.mem_cons_of_mem _ hc)
    have hfree := not_occursIn_iff.mp (hpad rest hne' hdigits)
    rw [← hrest] at hfree
    exact hfree (infix_weave_of_mem he).1
  refine ⟨e, he, ?_⟩
  rw [placeholder_eq_spelled, ← hvalue, toDigits_ofDigitChars (hclaims.digits e he) hne hzero]

/-- **What a restored text was like.**  It was a weave of words with numbers, each
region's once, and they alone were replaced.  Unless numbers are padded with zeros
no placeholder was lost; and then each stood there once and none is left exactly when
none stood there twice. -/
theorem restore_once {cs printed out : List Char} (h : (protect cs).restore printed = .ok out) :
    (∃ first more, (more.map fun e => Protected.number? e.1).Perm
        ((List.range (protect cs).regions.length).map some) ∧
      printed = weave (spelled (protect cs).tag) first more ∧
      out = weave (protect cs).regionFor first more) ∧
    (Unpadded (protect cs).tag printed →
      (∀ w ∈ (protect cs).placeholders, Text.occursIn w printed = true) ∧
      ((∀ w ∈ (protect cs).placeholders,
          Text.occurrences w printed = 1 ∧ Text.occursIn w out = false) ↔
        ∀ w ∈ (protect cs).placeholders, Text.occurrences w printed ≤ 1)) := by
  obtain ⟨first, more, ks, hclaims, hperm, rfl, rfl⟩ := Protected.restore_eq_ok h
  refine ⟨⟨first, more, ?_, rfl, rfl⟩, fun hpad => ?_⟩
  · rw [hclaims.numbers]
    exact hperm.map some
  have hword : ∀ w ∈ (protect cs).placeholders, ∃ n, w = placeholder (protect cs).tag n ∧
      ∃ e ∈ more, spelled (protect cs).tag e.1 = w := by
    intro w hw
    obtain ⟨n, hn, rfl⟩ := List.mem_map.mp hw
    exact ⟨n, rfl, hpad.exists_placeholder hclaims (hperm.mem_iff.mpr hn)⟩
  have hfound : ∀ w ∈ (protect cs).placeholders,
      w <:+: weave (spelled (protect cs).tag) first more := by
    intro w hw
    obtain ⟨n, -, e, he, hspelled⟩ := hword w hw
    rw [← hspelled]
    exact (infix_weave_of_mem he).1
  refine ⟨fun w hw => Text.occursIn_iff.mpr (hfound w hw), fun hall w hw => (hall w hw).1.le,
    fun hall w hw => ⟨?_, ?_⟩⟩
  · exact Nat.le_antisymm (hall w hw) (Text.occurrences_pos_iff.mpr (hfound w hw))
  · rw [not_occursIn_iff]
    intro hout
    obtain ⟨n, rfl, e, he, hspelled⟩ := hword w hw
    have htwo := two_le_occurrences_weave (f := spelled (protect cs).tag) (w := placeholder _ n)
      (by simp [placeholder, placeholderStart]) ⟨e, he, hspelled ▸ List.infix_rfl⟩
      (infix_weave_regionFor hclaims hout)
    have := hall _ hw
    omega

/-- Words that no region has the number of stay, and so does a start without a number. -/
theorem restore_once_swapped :
    (protect "\x7b\x7b a \x7d\x7d\x7b\x7b b \x7d\x7d".toList).restore
        "__TWIGKIT___TWIGKIT_1__ __TWIGKIT_2____TWIGKIT_0__".toList =
      .ok "__TWIGKIT_\x7b\x7b b \x7d\x7d __TWIGKIT_2__\x7b\x7b a \x7d\x7d".toList ∧
    Unpadded (protect "\x7b\x7b a \x7d\x7d\x7b\x7b b \x7d\x7d".toList).tag
      "__TWIGKIT___TWIGKIT_1__ __TWIGKIT_2____TWIGKIT_0__".toList ∧
    ∀ w ∈ (protect "\x7b\x7b a \x7d\x7d\x7b\x7b b \x7d\x7d".toList).placeholders,
      Text.occurrences w "__TWIGKIT___TWIGKIT_1__ __TWIGKIT_2____TWIGKIT_0__".toList = 1 ∧
        Text.occursIn w
          "__TWIGKIT_\x7b\x7b b \x7d\x7d __TWIGKIT_2__\x7b\x7b a \x7d\x7d".toList = false := by
  have hok : (protect "\x7b\x7b a \x7d\x7d\x7b\x7b b \x7d\x7d".toList).restore
        "__TWIGKIT___TWIGKIT_1__ __TWIGKIT_2____TWIGKIT_0__".toList =
      .ok "__TWIGKIT_\x7b\x7b b \x7d\x7d __TWIGKIT_2__\x7b\x7b a \x7d\x7d".toList := by
    decide +kernel
  have hpad : Unpadded (protect "\x7b\x7b a \x7d\x7d\x7b\x7b b \x7d\x7d".toList).tag
      "__TWIGKIT___TWIGKIT_1__ __TWIGKIT_2____TWIGKIT_0__".toList :=
    unpadded_of_digits (by decide +kernel)
  exact ⟨hok, hpad, ((restore_once hok).2 hpad).2.mpr (by decide +kernel)⟩

/-- A placeholder that comes twice is put back once, and the second one is left in
the text. -/
theorem restore_repeated :
    ∃ out, (protect "\x7b\x7b a \x7d\x7d".toList).restore
        "__TWIGKIT_0__ __TWIGKIT_0__".toList = .ok out ∧
      ¬ ∀ w ∈ (protect "\x7b\x7b a \x7d\x7d".toList).placeholders,
        Text.occurrences w "__TWIGKIT_0__ __TWIGKIT_0__".toList = 1 ∧
          Text.occursIn w out = false :=
  ⟨"\x7b\x7b a \x7d\x7d __TWIGKIT_0__".toList, by decide +kernel, by decide +kernel⟩

end TwigTemplate.Layout
