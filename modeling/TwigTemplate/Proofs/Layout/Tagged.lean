import Mathlib.Data.List.Infix
import TwigTemplate.Proofs.Element.Code
import TwigTemplate.Proofs.Layout.Claiming
import TwigTemplate.Proofs.Layout.Rows
import TwigTemplate.Proofs.Layout.Skipping
import TwigTemplate.Proofs.Region.Places

/-!
# The tags of a protected document

The folds of a document and the printer both need its element tags.  The folds read them off
the document, where the scan for tags finds the ends of template code on its own; the printer
reads them off the protected text, where each region is a word.

* `Skips`: outside of start tags no region holds what ends the markup that it stands in, inside
  them the scan finds the end of every quoted value, no quote is left open in a region, and what is
  no region is not closed.
* `tags_protect`: **then the protected text has the tags of the document**.
* `tags_lone_quote`: a quote without a partner hides the tags behind its region.
-/

namespace TwigTemplate.Layout

open Element (ReadsAlike attributeLength codeLength innerPlaces insides places)
open Region (Token lengthAfterOpener? pieces tell tokens)

/-! ### Regions and the scan for tags -/

/-- A row of tokens that begins with a region. -/
def startsRegion : List Token → Bool
  | .code _ :: _ => true
  | _ => false

/-- The text behind the first of the tokens that is the character. -/
def behind? (c : Char) : List Token → Option (List Char)
  | [] => none
  | t :: ts => if t = .char c then some (tell ts) else behind? c ts

/-- The text behind the quoted value at the start of a row of tokens; a quote in a region does not
end it. -/
def behindValue? : List Token → Option (List Char)
  | .char c :: ts => if Region.isQuote c then behind? c ts else none
  | _ => none

/-- The scan for tags skips the template regions of a document. -/
structure Skips (cs : List Char) : Prop where
  /-- Outside of start tags it comes to no place inside a region. -/
  outside : ∀ rest ∈ places cs, ∃ ts ∈ (tokens (pieces .document cs)).tails, tell ts = rest
  /-- Inside a start tag it goes on behind each character or quoted value that it comes to, be it
  after places inside the regions of the value. -/
  values : ∀ rest ∈ insides cs, ∀ ts ∈ (tokens (pieces .document cs)).tails, tell ts = rest →
    (∃ us ∈ (tokens (pieces .document cs)).tails, tell us = rest.drop (attributeLength rest)) ∨
    ∃ next ∈ innerPlaces 0 rest, behindValue? ts = some next
  /-- An opener that it comes to begins a region that reads alike, or has no closer behind it. -/
  opens : ∀ rest ∈ places cs ++ insides cs, ∀ ts ∈ (tokens (pieces .document cs)).tails,
    tell ts = rest → ∀ form ∈ Form.opening? rest,
      (startsRegion ts = true ∧ ReadsAlike form (rest.drop 2)) ∨
      Text.occursIn form.closer rest = false

instance (cs : List Char) : Decidable (Skips cs) :=
  decidable_of_iff
    ((∀ rest ∈ places cs, ∃ ts ∈ (tokens (pieces .document cs)).tails, tell ts = rest) ∧
      (∀ rest ∈ insides cs, ∀ ts ∈ (tokens (pieces .document cs)).tails, tell ts = rest →
        (∃ us ∈ (tokens (pieces .document cs)).tails,
          tell us = rest.drop (attributeLength rest)) ∨
        ∃ next ∈ innerPlaces 0 rest, behindValue? ts = some next) ∧
      ∀ rest ∈ places cs ++ insides cs, ∀ ts ∈ (tokens (pieces .document cs)).tails,
        tell ts = rest → ∀ form ∈ Form.opening? rest,
          (startsRegion ts = true ∧ ReadsAlike form (rest.drop 2)) ∨
          Text.occursIn form.closer rest = false)
    ⟨fun h => ⟨h.1, h.2.1, h.2.2⟩, fun h => ⟨h.outside, h.values, h.opens⟩⟩

/-! ### The row of a document -/

open Slot (Bounds Resumes code cut fill plain regionTexts render)

section Document

variable {cs : List Char} {U V : List Slot} {k : Nat}

theorem mem_tails_of_cut (hcut : cut .document cs = U ++ V) :
    V.map (Slot.token (fill (regionTexts .document cs))) ∈
      (tokens (pieces .document cs)).tails := by
  rw [List.mem_tails, ← Slot.map_token_cut, hcut, List.map_append]
  exact List.suffix_append _ _

theorem exists_cut_of_mem_tails {ts : List Token}
    (hts : ts ∈ (tokens (pieces .document cs)).tails) : ∃ U V, cut .document cs = U ++ V ∧
      ts = V.map (Slot.token (fill (regionTexts .document cs))) := by
  obtain ⟨front, htokens⟩ := (List.mem_tails ..).mp hts
  rw [← Slot.map_token_cut] at htokens
  obtain ⟨U, V, hcut, -, hV⟩ := List.map_eq_append_iff.mp htokens.symm
  exact ⟨U, V, hcut, hV.symm⟩

theorem exists_of_behind? {f : Nat → List Char} {c : Char} {S : List Slot} {rest : List Char}
    (h : behind? c (S.map (Slot.token f)) = some rest) :
    ∃ U V, S = U ++ plain c :: V ∧ plain c ∉ U ∧ rest = render f V := by
  induction S with
  | nil => exact absurd h (by simp [behind?])
  | cons s S ih =>
    rw [List.map_cons, behind?] at h
    by_cases hs : Slot.token f s = .char c
    · rw [if_pos hs, Slot.tell_map_token] at h
      cases s with
      | code k => exact absurd hs (by simp [Slot.token])
      | plain d =>
        obtain rfl := Token.char.inj hs
        exact ⟨[], S, rfl, by simp, (Option.some.inj h).symm⟩
    · rw [if_neg hs] at h
      obtain ⟨U, V, rfl, hU, rfl⟩ := ih h
      refine ⟨s :: U, V, rfl, ?_, rfl⟩
      rw [List.mem_cons, not_or]
      exact ⟨fun heq => hs (heq ▸ rfl), hU⟩

theorem cut_region (hcut : cut .document cs = U ++ code k :: V) :
    (∃ (form : Form) (body : List Char), fill (regionTexts .document cs) k = form.opener ++ body ∧
      lengthAfterOpener? .document form (body ++ render (fill (regionTexts .document cs)) V) =
        some body.length) ∧
      ∀ s ∈ U.getLast?, s ≠ plain '\x7b' := by
  have hscans := Region.scans_document cs
  rw [← Slot.map_token_cut, hcut, List.map_append, List.map_cons] at hscans
  obtain ⟨hregion, hlast⟩ := hscans.of_code
  rw [Slot.tell_map_token] at hregion
  refine ⟨hregion, ?_⟩
  rintro s hs rfl
  refine hlast (.char '\x7b') ?_ rfl
  rw [List.getLast?_map, Option.mem_def.mp hs]
  rfl

theorem newline_not_mem_of_spansLines
    (hline : ∀ r ∈ Region.ofDocument cs, r.kind.isTemplate = true → r.spansLines = false)
    {raw : List Char} (hraw : .code raw ∈ tokens (pieces .document cs)) : '\n' ∉ raw := by
  obtain ⟨p, hp, hmem⟩ := List.mem_flatMap.mp hraw
  rw [← Region.map_piece_locate .origin (pieces .document cs)] at hp
  obtain ⟨r, hr, rfl⟩ := List.mem_map.mp hp
  rw [Region.Piece.tokens] at hmem
  split at hmem
  · next htemplate =>
    obtain rfl : raw = r.raw := Token.code.inj (List.mem_singleton.mp hmem)
    have hspan := hline r hr htemplate
    rw [Region.spansLines, bne_eq_false_iff_eq, (Region.mem_locate hr).2,
      Point.advance_line] at hspan
    exact Text.newlineCount_eq_zero.mp (by omega)
  · exact absurd hmem (by simp)

/-- Regions of one line, and placeholders, are a filling. -/
theorem filling_cut (hline : ∀ raw, .code raw ∈ tokens (pieces .document cs) → '\n' ∉ raw) :
    Slot.Filling (fill (regionTexts .document cs)) (placeholder (protect cs).tag)
      (cut .document cs) where
  region k hk := Region.shape_of_mem_tokens (code_mem_of_mem_codes (Slot.mem_codes.mpr hk))
  line k hk := hline _ (code_mem_of_mem_codes (Slot.mem_codes.mpr hk))
  word k hk := by
    refine ⟨⟨_, rfl⟩, fun c hc => ?_⟩
    by_contra hword
    rw [Element.IsWordChar, not_or, Bool.not_eq_true] at hword
    exact not_mem_placeholder hword.2 hword.1 hc

/-- **A document that the scan for tags skips the regions of is passable.** -/
theorem Skips.passable (h : Skips cs)
    (hline : ∀ raw, .code raw ∈ tokens (pieces .document cs) → '\n' ∉ raw) :
    Slot.Passable (fill (regionTexts .document cs)) (placeholder (protect cs).tag)
      (cut .document cs) (places cs) (insides cs) where
  fill := filling_cut hline
  braceless U k V hcut := by
    have hcut' : cut .document cs = (U ++ [plain '\x7b']) ++ code k :: V := by
      rw [hcut, List.append_assoc]
      rfl
    exact (cut_region hcut').2 _ List.getLast?_concat rfl
  outside rest hrest := by
    obtain ⟨ts, hts, rfl⟩ := h.outside rest hrest
    obtain ⟨A, S, hcut, rfl⟩ := exists_cut_of_mem_tails hts
    exact ⟨A, S, hcut, Slot.tell_map_token S⟩
  values A c S hcut hplace := by
    rcases h.values _ hplace _ (mem_tails_of_cut hcut) (Slot.tell_map_token _) with
      ⟨us, hus, htell⟩ | ⟨next, hnext, hvalue⟩
    · obtain ⟨B, W, hcut', rfl⟩ := exists_cut_of_mem_tails hus
      rw [Slot.tell_map_token] at htell
      exact Or.inl ⟨B, W, hcut', htell.symm⟩
    · rw [List.map_cons, Slot.token, behindValue?] at hvalue
      split at hvalue
      · next hquote =>
        obtain ⟨U, V, rfl, hU, rfl⟩ := exists_of_behind? hvalue
        exact Or.inr ⟨by simpa [Region.isQuote] using hquote, U, V, rfl, hU, hnext⟩
      · exact absurd hvalue (by simp)
  passes A k S hcut hplace form hform := by
    obtain ⟨⟨form', body, hk, hlength⟩, -⟩ := cut_region hcut
    have htell := Slot.tell_map_token (f := fill (regionTexts .document cs)) (code k :: S)
    rw [Slot.render_code_cons, hk, List.append_assoc] at htell
    rw [hk] at hform hplace ⊢
    obtain rfl : form' = form := by
      rw [Region.opening?_opener] at hform
      exact Option.some.inj hform
    rw [List.append_assoc] at hplace ⊢
    have halike : ReadsAlike form' (body ++ render (fill (regionTexts .document cs)) S) := by
      rcases h.opens _ hplace _ (mem_tails_of_cut hcut) htell form'
        (Region.opening?_opener form' _) with ⟨-, halike⟩ | hfree
      · exact halike
      · -- A region holds its closer.
        obtain ⟨inner, rest, heq, -⟩ := Region.lengthAfterOpener?_closer hlength
        rw [heq] at hfree
        exact absurd ⟨form'.opener ++ inner, rest, by simp⟩ (not_occursIn_iff.mp hfree)
    have hdrop : ∀ rest, (form'.opener ++ rest).drop 2 = rest := fun _ => rfl
    rw [hdrop, codeLength, Element.codeLength?_eq halike, hlength, Option.getD_some]
    rfl
  opens A c S hcut hplace form hform := by
    rcases h.opens _ hplace _ (mem_tails_of_cut hcut) (Slot.tell_map_token _) form hform with
      ⟨hregion, -⟩ | hfree
    · exact absurd hregion (by simp [startsRegion, Slot.token])
    · exact not_occursIn_iff.mp hfree

/-- **The protected text has the tags of the document**, with the same names and kinds on the same
lines, when no region spans lines and the scan for tags skips the regions. -/
theorem tags_protect (hline : ∀ r ∈ Region.ofDocument cs, r.kind.isTemplate = true →
    r.spansLines = false) (h : Skips cs) :
    Element.tags cs = Element.tags (protect cs).text := by
  have hpassable := h.passable fun raw => newline_not_mem_of_spansLines hline
  have hknown : Slot.Known (places cs) (insides cs)
      (render (fill (regionTexts .document cs)) (cut .document cs)) := by
    rw [Slot.render_cut]
    exact ⟨fun _ hrest => hrest, fun _ hrest => hrest⟩
  have htags := Slot.tagsFrom_render hpassable (List.nil_append _).symm hknown 0
  rw [Slot.render_cut] at htags
  rw [Slot.protect_text]
  exact htags

end Document

/-- Regions in an attribute value, with its quote in them, in a comment and between tags, and an
opener that is left open. -/
theorem tags_protect_page :
    (∀ r ∈ Region.ofDocument
      "<a t=\"\x7b\x7b\"x\"\x7d\x7d\"><!--\x7b\x7bx\x7d\x7d--></a>\x7b#'#\x7d\x7b%<b>".toList,
      r.kind.isTemplate = true → r.spansLines = false) ∧
    Skips
      "<a t=\"\x7b\x7b\"x\"\x7d\x7d\"><!--\x7b\x7bx\x7d\x7d--></a>\x7b#'#\x7d\x7b%<b>".toList ∧
    Element.tags (Protected.text (protect
      "<a t=\"\x7b\x7b\"x\"\x7d\x7d\"><!--\x7b\x7bx\x7d\x7d--></a>\x7b#'#\x7d\x7b%<b>".toList)) =
      [⟨"a".toList, .opens, 0⟩, ⟨"a".toList, .closes, 0⟩] := by
  have hline : ∀ r ∈ Region.ofDocument
      "<a t=\"\x7b\x7b\"x\"\x7d\x7d\"><!--\x7b\x7bx\x7d\x7d--></a>\x7b#'#\x7d\x7b%<b>".toList,
      r.kind.isTemplate = true → r.spansLines = false := by
    decide +kernel
  have hskips : Skips
      "<a t=\"\x7b\x7b\"x\"\x7d\x7d\"><!--\x7b\x7bx\x7d\x7d--></a>\x7b#'#\x7d\x7b%<b>".toList := by
    decide +kernel
  refine ⟨hline, hskips, ?_⟩
  rw [← tags_protect hline hskips]
  decide +kernel

/-- A quote without a partner is an ordinary character where regions are cut, and opens a literal
in the scan for tags. -/
theorem tags_lone_quote :
    (∀ r ∈ Region.ofDocument "\x7b\x7b ' \x7d\x7d<b>".toList,
      r.kind.isTemplate = true → r.spansLines = false) ∧
    Element.tags "\x7b\x7b ' \x7d\x7d<b>".toList = [] ∧
    Element.tags (protect "\x7b\x7b ' \x7d\x7d<b>".toList).text = [⟨"b".toList, .opens, 0⟩] := by
  decide +kernel

end TwigTemplate.Layout
