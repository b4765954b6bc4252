import TwigTemplate.Editor.Suggestion
import TwigTemplate.Proofs.Completion.Accepting
import TwigTemplate.Proofs.Editor.Position
import TwigTemplate.Proofs.Region.Fronts

/-!
# What a suggestion replaces

A suggestion replaces what has been typed up to the cursor: a name replaces the word there, and a
snippet the statement that is open.  The statement is found again by its opener alone, as only a
marker, blanks and a word stand behind it.

* `Suggestion.Replaces`: the text that an edit takes away.
* `tag_of_body?`: snippets are offered only where a tag stands.
* `cutAtLast?_of_typing`: the last opener on the line is that of the open statement.
* `suggestions_replace`: **every suggestion replaces exactly what was typed**.
-/

namespace TwigTemplate.Editor

open Completion (Context Item Typing contextAt offerAt)
open Region (Closed pieces spell)
open Text (WordBetween width16)

variable {cs line : List Char} {p : Position} {s : Suggestion}

/-- A suggestion takes away the text `typed`, which stands on the line of the cursor and ends
there. -/
structure Suggestion.Replaces (s : Suggestion) (cs : List Char) (p : Position)
    (before typed behind : List Char) : Prop where
  cursor : lineAt? cs p = some (before ++ typed, behind)
  range : s.edit.range = .onLine p.line (width16 before) (width16 (before ++ typed))
  holds : s.edit.range.Holds cs before typed behind
  ordered : s.edit.range.start.character ≤ s.edit.range.stop.character

theorem Suggestion.replaces_of_range {before typed behind : List Char}
    (hcursor : lineAt? cs p = some (before ++ typed, behind))
    (hrange : s.edit.range = .onLine p.line (width16 before) (width16 (before ++ typed))) :
    s.Replaces cs p before typed behind := by
  refine ⟨hcursor, hrange, ?_, ?_⟩
  · rw [hrange]
    exact Range.holds_onLine (by rw [getElem?_of_lineAt? hcursor, List.append_assoc])
  · rw [hrange, Text.width16_append]
    exact Nat.le_add_right _ _

/-! ### Snippets -/

theorem body?_of_mem_contextItems {context : Context} {word : List Char} {item : Item}
    (hcontext : context ≠ .tag) (h : item ∈ Completion.contextItems context word) :
    item.body? = none := by
  by_cases hempty : context = .outside ∨ context = .setTarget
  · rw [Completion.contextItems.eq_def, if_pos hempty] at h
    exact absurd h List.not_mem_nil
  · rw [Completion.contextItems.eq_def, if_neg hempty] at h
    split at h
    · obtain ⟨e, -, rfl⟩ := Completion.mem_arrayFunctions h
      rfl
    · cases context with
      | tag => exact absurd rfl hcontext
      | filter | test | expression =>
        obtain ⟨e, -, rfl⟩ := List.mem_map.mp h
        rfl
      | setTarget | outside => exact absurd h List.not_mem_nil

/-- **Snippets are offered only where a tag stands.** -/
theorem tag_of_body? {item : Item} {body : List Char} (h : item ∈ (offerAt line).items)
    (hbody : item.body? = some body) :
    contextAt line = .tag ∧ ∃ s ∈ Vocabulary.snippets, s.body = body := by
  have hcontext : contextAt line = .tag := by
    by_contra hne
    have hnone := body?_of_mem_contextItems hne (Completion.mem_of_mem_narrow h)
    exact absurd (hbody.symm.trans hnone) (by simp)
  refine ⟨hcontext, ?_⟩
  rcases Completion.mem_offer_tag hcontext h with ⟨s, hs, rfl⟩ | ⟨e, -, rfl⟩ | ⟨e, -, rfl⟩
  · exact ⟨s, hs, Option.some.inj hbody⟩
  · exact absurd hbody (by simp [Item.body?])
  · exact absurd hbody (by simp [Item.body?])

theorem opener_prefix_of_mem_snippets :
    ∀ s ∈ Vocabulary.snippets, statementOpener <+: s.body := by
  decide +kernel

/-- **The last opener on the line is that of the open statement.** -/
theorem cutAtLast?_of_typing {before : List Region.Piece} {left b word : List Char}
    (h : Typing line .statement before left b word) (hb : ∀ c ∈ b, Text.isBlank c = true) :
    Text.cutAtLast? statementOpener (Text.trailingWord line).1 =
      some (spell before, Form.statement.opener ++ (left ++ b)) := by
  have hbrace : '{' ∉ '%' :: (left ++ b) := by
    simp only [List.mem_cons, List.mem_append, not_or]
    refine ⟨by decide, fun hmem => ?_, fun hmem => absurd (hb _ hmem) (by decide)⟩
    rcases h.marked with ⟨rfl, -⟩ | ⟨d, hd, rfl⟩
    · exact absurd hmem List.not_mem_nil
    · obtain rfl := List.mem_singleton.mp hmem
      exact absurd hd (by decide)
  rw [h.trailingWord_eq]
  exact Text.cutAtLast?_append hbrace (spell before)

/-! ### Edits -/

theorem exists_of_mem_suggestions (h : s ∈ suggestions cs p) :
    ∃ line behind item, lineAt? cs p = some (line, behind) ∧ item ∈ (offerAt line).items ∧
      s = suggestion p.line line (offerAt line).start item := by
  rw [suggestions] at h
  split at h
  · exact absurd h List.not_mem_nil
  · next line behind hcursor =>
    obtain ⟨item, hitem, rfl⟩ := List.mem_map.mp h
    exact ⟨line, behind, item, hcursor, hitem, rfl⟩

/-- A name replaces the word at the end of the line. -/
theorem suggestion_of_name {item : Item} (n : Nat) (hbody : item.body? = none) :
    suggestion n line (offerAt line).start item =
      ⟨item, ⟨.onLine n (width16 (Text.trailingWord line).1) (width16 line),
        item.name.toList⟩, none⟩ := by
  rw [suggestion, hbody, Completion.take_start]

/-- A snippet replaces the line from its last opener on. -/
theorem suggestion_of_body {item : Item} {body before statement : List Char} (n : Nat)
    (hbody : item.body? = some body)
    (hcut : Text.cutAtLast? statementOpener (Text.trailingWord line).1 = some (before, statement)) :
    suggestion n line (offerAt line).start item =
      ⟨item, ⟨.onLine n (width16 before) (width16 line), body⟩,
        some (statement ++ item.name.toList)⟩ := by
  rw [suggestion, hbody, Completion.take_start, hcut]

/-- **Every suggestion replaces exactly what was typed.**  A name replaces the word before the
cursor.  A snippet replaces the open statement with its opener, and nothing is open before that. -/
theorem suggestions_replace (h : s ∈ suggestions cs p) :
    ∃ before typed behind, s.Replaces cs p before typed behind ∧
      (s.item.body? = none →
        WordBetween before typed [] ∧ s.edit.newText = s.item.name.toList) ∧
      ∀ body, s.item.body? = some body →
        pieces .line (before ++ typed) =
            pieces .line before ++ [⟨.unterminated .statement, typed⟩] ∧
          Closed (pieces .line before) ∧ statementOpener <+: typed ∧
          s.edit.newText = body ∧ statementOpener <+: body := by
  obtain ⟨line, behind, item, hcursor, hitem, rfl⟩ := exists_of_mem_suggestions h
  cases hbody : item.body? with
  | none =>
    rw [suggestion_of_name p.line hbody]
    have happend := Text.trailingWord_append line
    have hword := Text.wordBetween_trailingWord_leadingWord line []
    rw [show Text.leadingWord [] = ([], []) from rfl, List.append_nil] at hword
    refine ⟨(Text.trailingWord line).1, (Text.trailingWord line).2, behind,
      Suggestion.replaces_of_range (by rw [happend, hcursor]) (by rw [happend]),
      fun _ => ⟨hword, rfl⟩, fun body hsome => absurd (hbody.symm.trans hsome) (by simp)⟩
  | some body =>
    obtain ⟨hcontext, snippet, hsnippet, rfl⟩ := tag_of_body? hitem hbody
    obtain ⟨before, left, b, word, htyping, -, hb⟩ := Completion.exists_typing_tag hcontext
    rw [suggestion_of_body p.line hbody (cutAtLast?_of_typing htyping hb)]
    have happend : spell before ++ (Form.statement.opener ++ (left ++ (b ++ word))) = line := by
      conv_rhs => rw [htyping.line_eq]
      simp only [List.append_assoc]
    have hfree : '\n' ∉ line := fun hmem =>
      newline_not_mem_of_mem_lines (List.mem_of_getElem? (getElem?_of_lineAt? hcursor))
        (List.mem_append_left _ hmem)
    have hfront : '\n' ∉ spell before := htyping.newline_not_mem_before hfree
    obtain ⟨hpieces, hclosed⟩ := Region.pieces_spell_front hfree (by simp)
      ((Region.pieces_line_eq hfree).symm.trans htyping.cut)
    rw [← Region.pieces_line_eq hfront] at hpieces
    refine ⟨spell before, Form.statement.opener ++ (left ++ (b ++ word)), behind,
      Suggestion.replaces_of_range (by rw [happend, hcursor]) (by rw [happend]),
      fun hnone => absurd (hbody.symm.trans hnone) (by simp), fun body' hsome => ?_⟩
    obtain rfl := Option.some.inj (hbody.symm.trans hsome)
    rw [happend, hpieces]
    exact ⟨htyping.cut, hclosed, List.prefix_append _ _, rfl,
      opener_prefix_of_mem_snippets snippet hsnippet⟩

/-- A statement with a marker behind a character of two units and an opener in a literal: a snippet
replaces it from its own opener on, and a name the letter behind it. -/
theorem suggestions_replace_astral :
    ∃ cs p, cs = "a\r\n\x7b\x7b '\x7b%' \x7d\x7d𝄞\x7b%- i\r\n".toList ∧ p = ⟨1, 17⟩ ∧
      (∃ s ∈ suggestions cs p, s.item.name = "if" ∧ s.edit.range = .onLine 1 12 17 ∧
        ∃ before typed behind, s.Replaces cs p before typed behind ∧
          Closed (pieces .line before) ∧ statementOpener <+: typed ∧
          statementOpener <+: s.edit.newText) ∧
      ∃ s ∈ suggestions cs p, s.item.name = "in" ∧ s.edit.range = .onLine 1 16 17 ∧
        ∃ before typed behind, s.Replaces cs p before typed behind ∧
          WordBetween before typed [] := by
  refine ⟨_, _, rfl, rfl, ?_, ?_⟩
  · have hfound : ∃ s ∈ suggestions "a\r\n\x7b\x7b '\x7b%' \x7d\x7d𝄞\x7b%- i\r\n".toList ⟨1, 17⟩,
        s.item.name = "if" ∧ s.item.body?.isSome = true ∧ s.edit.range = .onLine 1 12 17 := by
      decide +kernel
    obtain ⟨s, hs, hname, hsome, hrange⟩ := hfound
    obtain ⟨body, hbody⟩ := Option.isSome_iff_exists.mp hsome
    obtain ⟨before, typed, behind, hreplaces, -, hsnippet⟩ := suggestions_replace hs
    obtain ⟨-, hclosed, htyped, htext, hopener⟩ := hsnippet body hbody
    exact ⟨s, hs, hname, hrange, before, typed, behind, hreplaces, hclosed, htyped,
      htext ▸ hopener⟩
  · have hfound : ∃ s ∈ suggestions "a\r\n\x7b\x7b '\x7b%' \x7d\x7d𝄞\x7b%- i\r\n".toList ⟨1, 17⟩,
        s.item.name = "in" ∧ s.item.body? = none ∧ s.edit.range = .onLine 1 16 17 := by
      decide +kernel
    obtain ⟨s, hs, hname, hbody, hrange⟩ := hfound
    obtain ⟨before, typed, behind, hreplaces, hword, -⟩ := suggestions_replace hs
    exact ⟨s, hs, hname, hrange, before, typed, behind, hreplaces, (hword hbody).1⟩

end TwigTemplate.Editor
